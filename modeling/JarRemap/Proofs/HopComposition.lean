import JarRemap.Proofs.TableRemapping

/-!
# Remapping hop by hop

Remapping with one table and then with another is remapping once with the composed table: every constant
that stands for a symbol stands for the same in the end, and the class declares the same members. The tables
have to be `Chained` for the symbols of the class file.
-/
namespace JarRemap

open ClassFile List Descriptor Text ConstantPool JarRemap.Symbol

variable {constant : Constant} {index : UInt16}

namespace Symbol

/-- The name of a class, and for an array also the classes in it. -/
def classesOf (name : String) : List String :=
  name :: if startsWith '[' name then names name else []

/-- The names of the classes in the symbol. -/
def classNames : Symbol → List String
  | .classRef name => classesOf name
  | .member reference => classesOf reference.owner ++ names reference.descriptor
  | .methodType descriptor => names descriptor

def member? : Symbol → Option MemberSymbol
  | .member reference => some reference
  | _ => none

end Symbol

namespace ClassFile

def declaredSymbols (file : ClassFile) (owner : String) (kind : MemberKind) : List Symbol :=
  (file.signatures kind).filterMap fun signature =>
    signature.map fun (name, descriptor) => .member ⟨kind, owner, name, descriptor⟩

def symbols (file : ClassFile) : List Symbol :=
  (file.pool.constants.filterMap fun (_, constant) => file.pool.symbol? constant) ++
    match file.name with
    | .ok owner => file.declaredSymbols owner .field ++ file.declaredSymbols owner .method
    | .error _ => []

/-- The names of the classes in the symbols of the class file. -/
def classNames (file : ClassFile) : List String := file.symbols.flatMap Symbol.classNames

def memberSymbols (file : ClassFile) : List MemberSymbol := file.symbols.filterMap member?

variable {file : ClassFile} {symbol : Symbol} {owner name descriptor : String}

theorem symbol_of_constant (bounded : file.pool.count ≤ 65535)
    (held : file.pool.constant? index = some constant)
    (read : file.pool.symbol? constant = some symbol) : symbol ∈ file.symbols :=
  mem_append_left _
    (mem_filterMap.mpr ⟨(index, constant), (mem_constants bounded).mpr held, read⟩)

theorem symbol_of_name (bounded : file.pool.count ≤ 65535) (named : file.name = .ok name) :
    .classRef name ∈ file.symbols := by
  obtain ⟨slot, held, read⟩ := className_eq_ok.mp named
  exact symbol_of_constant bounded held (by simp [symbol?, read, Except.toOption])

theorem symbol_of_signature {kind : MemberKind} (named : file.name = .ok owner)
    (declared : some (name, descriptor) ∈ file.signatures kind) :
    .member ⟨kind, owner, name, descriptor⟩ ∈ file.symbols := by
  have listed : .member ⟨kind, owner, name, descriptor⟩ ∈ file.declaredSymbols owner kind :=
    mem_filterMap.mpr ⟨_, declared, rfl⟩
  refine mem_append_right _ ?_
  rw [named]
  cases kind with
  | field => exact mem_append_left _ listed
  | method => exact mem_append_right _ listed

theorem mem_classNames (listed : symbol ∈ file.symbols) (spelled : name ∈ symbol.classNames) : name ∈ file.classNames :=
  mem_flatMap.mpr ⟨symbol, listed, spelled⟩

theorem mem_memberSymbols {member : MemberSymbol} (listed : .member member ∈ file.symbols) :
    member ∈ file.memberSymbols :=
  mem_filterMap.mpr ⟨_, listed, rfl⟩

end ClassFile

namespace MappingTable.Chained

variable {first next back table : MappingTable} {names : List String} {members : List MemberSymbol}
  {name : String} {member : MemberSymbol}

section symbols

variable (chained : Chained first next names members)

include chained

theorem startsWith_className (plain : ¬ startsWith '[' name) : ¬ startsWith '[' (first.className name) := by
  cases renamed : first.class? name with
  | none => rwa [className_of_none renamed]
  | some newName =>
    rw [className_of_some renamed]
    exact chained.plainClasses newName (mem_classes_values.mpr ⟨name, renamed⟩)

theorem startsWith_memberName (plain : ¬ startsWith '<' member.name) :
    ¬ startsWith '<' (first.memberName member.kind member.owner member.name member.descriptor) := by
  cases renamed : first.member? member.kind member.owner member.name member.descriptor with
  | none => rwa [memberName_of_none renamed]
  | some newName =>
    rw [memberName_of_some renamed]
    obtain ⟨entry, listed, -, rfl⟩ := member?_eq_some.mp renamed
    exact chained.plainMembers entry listed

variable (composed : Composed first next back table)

include composed

theorem classOrArrayName_composed (complete : CompleteClass name)
    (used : ∀ spelled ∈ classesOf name, spelled ∈ first.mentioned ++ names) :
    table.classOrArrayName name = next.classOrArrayName (first.classOrArrayName name) := by
  by_cases array : startsWith '[' name
  · have stays : startsWith '[' (rename first.className name) := by
      rwa [startsWith_rename (complete array)]
    rw [classOrArrayName_of_array array, classOrArrayName_of_array array, classOrArrayName_of_array stays]
    refine chained.keepsApart.rename_composed composed (complete array) fun spelled listed => used spelled ?_
    simp [classesOf, array, listed]
  · rw [classOrArrayName_of_plain array, classOrArrayName_of_plain array,
      classOrArrayName_of_plain (chained.startsWith_className array)]
    exact chained.keepsApart.className_composed composed (used name mem_cons_self)

theorem referencedName_composed (used : Used first names members member) (ownerComplete : CompleteClass member.owner) :
    table.referencedName member = next.referencedName { member with
      owner := first.classOrArrayName member.owner
      name := first.referencedName member
      descriptor := rename first.className member.descriptor } := by
  by_cases array : startsWith '[' member.owner
  · have stays : startsWith '[' (first.classOrArrayName member.owner) := by
      rwa [classOrArrayName_of_array array, startsWith_rename (ownerComplete array)]
    simp [referencedName, array, stays]
  · by_cases special : startsWith '<' member.name
    · simp [referencedName, special]
    · have plainOwner := chained.startsWith_className array
      have plainName := chained.startsWith_memberName special
      have composedName := chained.memberName_composed composed used
      simpa [referencedName, classOrArrayName_of_plain array, array, special, plainOwner, plainName] using
        composedName

theorem mapSymbol_composed (complete : symbol.Complete)
    (used : ∀ name ∈ symbol.classNames, name ∈ first.mentioned ++ names)
    (listed : ∀ member ∈ symbol.member?, member ∈ first.memberSymbols ++ members) :
    table.mapSymbol symbol = next.mapSymbol (first.mapSymbol symbol) := by
  cases symbol with
  | classRef name =>
    exact congrArg classRef (chained.classOrArrayName_composed composed complete used)
  | member reference =>
    obtain ⟨ownerComplete, complete⟩ := complete
    have ownerUsed : ∀ name ∈ classesOf reference.owner, name ∈ first.mentioned ++ names :=
      fun name spelled => used name (mem_append_left _ spelled)
    have spelled : ∀ name ∈ Descriptor.names reference.descriptor, name ∈ first.mentioned ++ names :=
      fun name spelled => used name (mem_append_right _ spelled)
    have referenceUsed : Used first names members reference :=
      ⟨listed reference rfl, ownerUsed _ mem_cons_self, spelled, complete⟩
    have name := chained.referencedName_composed composed referenceUsed ownerComplete
    have owner := chained.classOrArrayName_composed composed ownerComplete ownerUsed
    have descriptor := chained.keepsApart.rename_composed composed complete spelled
    rw [mapSymbol, mapSymbol, mapSymbol, name, owner, descriptor]
  | methodType descriptor =>
    exact congrArg methodType (chained.keepsApart.rename_composed composed complete used)

end symbols

section declared

variable {kind : MemberKind} {owner descriptor : String}

theorem member?_of_semicolon (separated : ∀ name ∈ table.mentioned, ';' ∉ name.toList)
    (held : ';' ∈ owner.toList) : table.member? kind owner name descriptor = none := by
  refine Option.eq_none_iff_forall_ne_some.mpr fun newName renamed => ?_
  have known : ⟨kind, owner, name, descriptor⟩ ∈ table.memberSymbols :=
    mem_memberSymbols.mpr ⟨newName, renamed⟩
  exact separated _ (owner_mentioned known) held

variable (chained : Chained first next names members) (composed : Composed first next back table)

include chained

theorem separated_first : ∀ name ∈ first.mentioned, ';' ∉ name.toList := fun name listed =>
  chained.separated name (mem_append_left _ (mem_append_left _ listed))

theorem separated_next : ∀ name ∈ next.mentioned, ';' ∉ name.toList := fun name listed =>
  chained.separated name (mem_append_left _ (mem_append_right _ listed))

include composed

theorem member?_composed_of_semicolon (held : ';' ∈ owner.toList) :
    table.member? kind owner name descriptor = none := by
  refine Option.eq_none_iff_forall_ne_some.mpr fun newName found => ?_
  obtain ⟨entry, listed, -, rfl, -⟩ :=
    composed.carried (member?_of_semicolon chained.separated_first held) found
  have known : entry.symbol ∈ next.memberSymbols := mem_map_of_mem listed
  exact chained.keepsApart.separated_back composed.inverted
    (chained.separated_next _ (owner_mentioned known)) held

section

variable (used : Used first names members member) (ownerComplete : CompleteClass member.owner)
  (kept : startsWith '[' member.owner → first.className member.owner = member.owner)
include used ownerComplete kept

/-- The class that a class file declares is renamed like the class of a constant, also if its name is that
of an array. Such a name has a semicolon, and then no table knows its members, or no classes in it, and
then it stays. -/
theorem memberName_declared : table.memberName member.kind member.owner member.name member.descriptor =
      next.memberName member.kind (first.classOrArrayName member.owner)
        (first.memberName member.kind member.owner member.name member.descriptor)
        (rename first.className member.descriptor) := by
  by_cases array : startsWith '[' member.owner
  · by_cases held : ';' ∈ member.owner.toList
    · have heldAfter : ';' ∈ (first.classOrArrayName member.owner).toList := by
        rw [classOrArrayName_of_array array]
        exact semicolon_mem_rename (ownerComplete array) held
      rw [memberName_of_none (chained.member?_composed_of_semicolon composed held),
        memberName_of_none (member?_of_semicolon chained.separated_first held),
        memberName_of_none (member?_of_semicolon chained.separated_next heldAfter)]
    · have stays : first.classOrArrayName member.owner = first.className member.owner := by
        rw [classOrArrayName_of_array array, rename_of_notMem (ownerComplete array) held, kept array]
      rw [stays]
      exact chained.memberName_composed composed used
  · rw [classOrArrayName_of_plain array]
    exact chained.memberName_composed composed used

theorem declaredName_composed : table.declaredName member = next.declaredName { member with
      owner := first.classOrArrayName member.owner
      name := first.declaredName member
      descriptor := rename first.className member.descriptor } := by
  by_cases special : member.kind = .method ∧ startsWith '<' member.name
  · simp [declaredName, special]
  · have plain : ¬ (member.kind = .method ∧ startsWith '<'
        (first.memberName member.kind member.owner member.name member.descriptor)) := by
      rintro ⟨method, marked⟩
      exact chained.startsWith_memberName (fun before => special ⟨method, before⟩) marked
    simp only [declaredName, if_neg special, if_neg plain]
    exact chained.memberName_declared composed used ownerComplete kept

end

end declared

end MappingTable.Chained

section hops

open MappingTable

variable {first next back table : MappingTable} {file middle once twice : ClassFile}
  {bootstraps middleBootstraps onceBootstraps : List BootstrapMethod} {owner middleOwner : String}

section

variable (chained : Chained first next file.classNames file.memberSymbols) (composed : Composed first next back table)
include chained composed

theorem symbolAt?_hops (bounded : file.pool.count ≤ 65535)
    (firstHop : RemappedFile first.renamer bootstraps owner file middle)
    (nextHop : RemappedFile next.renamer middleBootstraps middleOwner middle twice)
    (oneHop : RemappedFile table.renamer onceBootstraps owner file once)
    (held : file.pool.constant? index = some constant) (names : constant.isSymbol) :
    ∃ symbol, once.pool.symbolAt? index = some symbol ∧ twice.pool.symbolAt? index = some symbol := by
  obtain ⟨symbol, between, read, complete, middleHeld, middleNames, middleRead⟩ :=
    symbolAt?_remapped firstHop held names
  obtain ⟨_, last, again, -, lastHeld, -, lastRead⟩ := symbolAt?_remapped nextHop middleHeld middleNames
  obtain ⟨_, direct, reread, -, directHeld, -, directRead⟩ := symbolAt?_remapped oneHop held names
  obtain rfl := Option.mem_unique middleRead again
  obtain rfl := Option.mem_unique read reread
  have listed : symbol ∈ file.symbols := symbol_of_constant bounded held read
  have same : table.mapSymbol symbol = next.mapSymbol (first.mapSymbol symbol) := by
    refine chained.mapSymbol_composed composed complete (fun name spelled => ?_) (fun member found => ?_)
    · exact mem_append_right _ (mem_classNames listed spelled)
    · exact mem_append_right _ (mem_filterMap.mpr ⟨symbol, listed, found⟩)
  refine ⟨table.mapSymbol symbol, ?_, ?_⟩
  · rw [symbolAt?, directHeld, Option.bind_some, directRead]
  · rw [symbolAt?, lastHeld, Option.bind_some, lastRead, same]

/-- The descriptors of the declared members are the same after both ways, and so are their names, unless
the class has the name of an array that the first table takes for a class with another name. -/
theorem signatures_hops (firstHop : RemappedFile first.renamer bootstraps owner file middle)
    (nextHop : RemappedFile next.renamer middleBootstraps middleOwner middle twice)
    (oneHop : RemappedFile table.renamer onceBootstraps owner file once) (named : file.name = .ok owner)
    (middleNamed : middle.name = .ok middleOwner) (kind : MemberKind) :
    (once.signatures kind).map (Option.map Prod.snd) = (twice.signatures kind).map (Option.map Prod.snd) ∧
      ((startsWith '[' owner → first.className owner = owner) → once.signatures kind = twice.signatures kind) := by
  obtain ⟨complete, middle_eq⟩ := signatures_remapped firstHop kind
  obtain ⟨-, twice_eq⟩ := signatures_remapped nextHop kind
  obtain ⟨-, once_eq⟩ := signatures_remapped oneHop kind
  obtain ⟨ownerComplete, renamed⟩ := name_remapped firstHop named
  obtain rfl := Outcome.unique renamed middleNamed
  have used {name descriptor : String} (declared : some (name, descriptor) ∈ file.signatures kind)
      (complete : Complete descriptor) :
      Used first file.classNames file.memberSymbols ⟨kind, owner, name, descriptor⟩ := by
    have listed := symbol_of_signature named declared
    refine ⟨mem_append_right _ (mem_memberSymbols listed), ?_, fun spelled held => ?_, complete⟩
    · exact mem_append_right _
        (mem_classNames listed (mem_append_left _ mem_cons_self))
    · exact mem_append_right _ (mem_classNames listed (mem_append_right _ held))
  have described {name descriptor : String} (declared : some (name, descriptor) ∈ file.signatures kind)
      (complete : Complete descriptor) :
      rename table.className descriptor =
        rename next.className (rename first.className descriptor) :=
    chained.keepsApart.rename_composed composed complete (used declared complete).spelled
  rw [twice_eq, middle_eq, once_eq]
  simp only [map_map]
  refine ⟨map_congr_left fun signature declared => ?_, fun kept =>
    map_congr_left fun signature declared => ?_⟩
  · obtain ⟨name, descriptor, rfl, descriptorComplete⟩ := complete signature declared
    exact congrArg some (described declared descriptorComplete)
  · obtain ⟨name, descriptor, rfl, descriptorComplete⟩ := complete signature declared
    refine congrArg some (Prod.ext ?_ (described declared descriptorComplete))
    exact chained.declaredName_composed composed (used declared descriptorComplete) ownerComplete kept

/-- The class has the same new name after both ways, if the constant that names it is renamed as the class is. -/
theorem className_hops (bounded : file.pool.count ≤ 65535)
    (firstHop : RemappedFile first.renamer bootstraps owner file middle) (named : file.name = .ok owner)
    (middleNamed : middle.name = .ok middleOwner) (alike : first.classOrArrayName owner = first.className owner) :
    table.className owner = next.className middleOwner := by
  have used : owner ∈ file.classNames :=
    mem_classNames (symbol_of_name bounded named) mem_cons_self
  obtain ⟨-, renamed⟩ := name_remapped firstHop named
  obtain rfl := Outcome.unique renamed middleNamed
  rw [alike]
  exact chained.keepsApart.className_composed composed (mem_append_right _ used)

end

/-- Remapping once with the composed table is remapping with the two tables in a row.

Every constant of the class file that stands for a class, a member or the type of a method stands for the
same symbol after both ways. The declared members have the same descriptors, in the same order. They have
the same names as well, unless the class itself is called like an array and the first table takes that array for a
class with another name. The class has the same name, if the first table renames the constant that names it like a
class, as it does unless the class is called like an array. -/
theorem remapClass_compose {options middleOptions onceOptions : RemapOptions} {bytes : Bytes}
    {hop lastHop direct : RemappedClass} (composed : first.compose next = .ok table)
    (remappedFirst : remapClass first.renamer options bytes = .ok hop)
    (remappedNext : remapClass next.renamer middleOptions hop.bytes = .ok lastHop)
    (remappedOnce : remapClass table.renamer onceOptions bytes = .ok direct)
    (parsed : ClassFile.read bytes = .ok file)
    (chained : Chained first next file.classNames file.memberSymbols) :
    ∃ once twice, ClassFile.read direct.bytes = .ok once ∧ ClassFile.read lastHop.bytes = .ok twice ∧
      (∀ index constant, file.pool.constant? index = some constant → constant.isSymbol →
        ∃ symbol, once.pool.symbolAt? index = some symbol ∧ twice.pool.symbolAt? index = some symbol) ∧
      (∀ kind, (once.signatures kind).map (Option.map Prod.snd) =
        (twice.signatures kind).map (Option.map Prod.snd)) ∧
      ((Text.startsWith '[' direct.oldName → first.className direct.oldName = direct.oldName) →
        ∀ kind, once.signatures kind = twice.signatures kind) ∧
      (first.classOrArrayName direct.oldName = first.className direct.oldName →
        direct.newName = lastHop.newName) := by
  obtain ⟨back, composed⟩ := compose_composed composed
  obtain ⟨_, middle, _, again, middleParsed, -, named, -, firstHop⟩ := remapClass_remapped remappedFirst
  obtain ⟨_, twice, _, middleAgain, twiceParsed, -, middleNamed, lastNamed, nextHop⟩ :=
    remapClass_remapped remappedNext
  obtain ⟨_, once, _, reread, onceParsed, -, onceNamed, directNamed, oneHop⟩ :=
    remapClass_remapped remappedOnce
  obtain rfl := Except.ok.inj (parsed.symm.trans again)
  obtain rfl := Except.ok.inj (parsed.symm.trans reread)
  obtain rfl := Except.ok.inj (middleParsed.symm.trans middleAgain)
  have sameName : hop.oldName = direct.oldName := Except.ok.inj (named.symm.trans onceNamed)
  rw [sameName] at firstHop
  have signatures := signatures_hops chained composed firstHop nextHop oneHop onceNamed middleNamed
  have bounded : file.pool.count ≤ 65535 := (ClassFile.read_wellFormed parsed).bounded
  refine ⟨once, twice, onceParsed, twiceParsed, fun index constant held names => ?_,
    fun kind => (signatures kind).1, fun kept kind => (signatures kind).2 kept, fun alike => ?_⟩
  · exact symbolAt?_hops chained composed bounded firstHop nextHop oneHop held names
  · calc direct.newName
      _ = table.className direct.oldName := Except.ok.inj directNamed.symm
      _ = next.className lastHop.oldName :=
        className_hops chained composed bounded firstHop onceNamed middleNamed alike
      _ = lastHop.newName := Except.ok.inj lastNamed

/-- The class `A`, which declares and refers to the method `f` and the field `x`, and has constants for the
array of `D` and for the type of `f`. -/
def hopClass : Bytes := [0xca,0xfe,0xba,0xbe,0,0,0,52,0,14,1,0,1,65,7,0,1,1,0,1,102,1,0,5,40,41,76,
  65,59,12,0,3,0,4,10,0,2,0,5,1,0,1,120,1,0,1,73,12,0,7,0,8,9,0,2,0,9,1,0,4,91,76,68,59,7,0,11,16,0,
  4,0,0,0,2,0,0,0,0,0,1,0,0,0,7,0,8,0,0,0,1,0,0,0,3,0,4,0,0,0,0]

theorem remapClass_compose_hopClass : ∃ table hop lastHop direct file,
    firstHopTable.compose nextHopTable = .ok table ∧
      remapClass firstHopTable.renamer {} hopClass = .ok hop ∧
      remapClass nextHopTable.renamer {} hop.bytes = .ok lastHop ∧
      remapClass table.renamer {} hopClass = .ok direct ∧ ClassFile.read hopClass = .ok file ∧
      Chained firstHopTable nextHopTable file.classNames file.memberSymbols ∧
      ∃ once twice, ClassFile.read direct.bytes = .ok once ∧ ClassFile.read lastHop.bytes = .ok twice ∧
        (∀ index constant, file.pool.constant? index = some constant → constant.isSymbol →
          ∃ symbol, once.pool.symbolAt? index = some symbol ∧ twice.pool.symbolAt? index = some symbol) ∧
        (∀ kind, once.signatures kind = twice.signatures kind) ∧ direct.newName = lastHop.newName := by
  have twoHops : RemappedClass.newName <$> (remapClass firstHopTable.renamer {} hopClass >>= fun hop =>
      remapClass nextHopTable.renamer {} hop.bytes) = .ok "C" := by
    decide +kernel
  have oneHop : RemappedClass.oldName <$> (firstHopTable.compose nextHopTable >>= fun table =>
      remapClass table.renamer {} hopClass) = .ok "A" := by
    decide +kernel
  have fits : (fun file => decide (Chained firstHopTable nextHopTable file.classNames
      file.memberSymbols)) <$> ClassFile.read hopClass = .ok true := by
    decide +kernel
  obtain ⟨lastHop, hops, -⟩ := Outcome.map_eq_ok.mp twoHops
  obtain ⟨hop, remappedFirst, remappedNext⟩ := Outcome.bind_eq_ok.mp hops
  obtain ⟨direct, once, oldName⟩ := Outcome.map_eq_ok.mp oneHop
  obtain ⟨table, composed, remappedOnce⟩ := Outcome.bind_eq_ok.mp once
  obtain ⟨file, parsed, decided⟩ := Outcome.map_eq_ok.mp fits
  have chained := of_decide_eq_true decided
  have plain : ¬ Text.startsWith '[' direct.oldName := by
    rw [oldName]
    decide
  obtain ⟨once, twice, onceParsed, twiceParsed, constants, -, signatures, newName⟩ :=
    remapClass_compose composed remappedFirst remappedNext remappedOnce parsed chained
  exact ⟨table, hop, lastHop, direct, file, composed, remappedFirst, remappedNext, remappedOnce, parsed,
    chained, once, twice, onceParsed, twiceParsed, constants, signatures fun array => absurd array plain,
    newName (classOrArrayName_of_plain plain)⟩

/-- Renames `[I` as if it were a class, and its field `f`. -/
def arrayHopTable : MappingTable :=
  (empty "a" "b").insertClass "[I" "B" |>.insertMember ⟨"[I", .field, ⟨"f", "I"⟩, "g"⟩

/-- Goes on to rename the field. -/
def arrayNextTable : MappingTable := (empty "b" "c").insertMember ⟨"B", .field, ⟨"g", "I"⟩, "h"⟩

/-- A class that is called `[I` and declares the field `f`. -/
def arrayClass : Bytes := [0xca,0xfe,0xba,0xbe,0,0,0,52,0,7,1,0,2,91,73,7,0,1,1,0,1,102,1,0,1,73,1,
  0,16,106,97,118,97,47,108,97,110,103,47,79,98,106,101,99,116,7,0,5,0,33,0,2,0,6,0,0,0,1,0,0,0,3,0,
  4,0,0,0,0,0,0]

/-- A constant that spells an array keeps its name, so the class file says `[I` between the hops. The second table
does not know the field under this name. -/
theorem remapClass_compose_arrayClass : ∃ table hop lastHop direct file once twice,
    arrayHopTable.compose arrayNextTable = .ok table ∧
      remapClass arrayHopTable.renamer {} arrayClass = .ok hop ∧
      remapClass arrayNextTable.renamer {} hop.bytes = .ok lastHop ∧
      remapClass table.renamer {} arrayClass = .ok direct ∧ ClassFile.read arrayClass = .ok file ∧
      Chained arrayHopTable arrayNextTable file.classNames file.memberSymbols ∧
      ClassFile.read direct.bytes = .ok once ∧ ClassFile.read lastHop.bytes = .ok twice ∧
      once.signatures .field = [some ("h", "I")] ∧ twice.signatures .field = [some ("g", "I")] ∧
      direct.newName = "B" ∧ lastHop.newName = "[I" := by
  have twoHops : (do
      let hop ← remapClass arrayHopTable.renamer {} arrayClass
      let lastHop ← remapClass arrayNextTable.renamer {} hop.bytes
      let twice ← ClassFile.read lastHop.bytes
      return (twice.signatures .field, lastHop.newName) : Outcome _) = .ok ([some ("g", "I")], "[I") := by
    decide +kernel
  have oneHop : (do
      let table ← arrayHopTable.compose arrayNextTable
      let direct ← remapClass table.renamer {} arrayClass
      let once ← ClassFile.read direct.bytes
      return (once.signatures .field, direct.newName) : Outcome _) = .ok ([some ("h", "I")], "B") := by
    decide +kernel
  have fits : (fun file => decide (Chained arrayHopTable arrayNextTable file.classNames
      file.memberSymbols)) <$> ClassFile.read arrayClass = .ok true := by
    decide +kernel
  simp only [Outcome.bind_eq_ok, Outcome.pure_eq_ok, Prod.mk.injEq] at twoHops oneHop
  obtain ⟨hop, remappedFirst, lastHop, remappedNext, twice, twiceParsed, twiceNames, lastName⟩ := twoHops
  obtain ⟨table, composed, direct, remappedOnce, once, onceParsed, onceNames, directName⟩ := oneHop
  obtain ⟨file, parsed, decided⟩ := Outcome.map_eq_ok.mp fits
  exact ⟨table, hop, lastHop, direct, file, once, twice, composed, remappedFirst, remappedNext, remappedOnce, parsed,
    of_decide_eq_true decided, onceParsed, twiceParsed, onceNames, twiceNames, directName, lastName⟩

end hops

end JarRemap

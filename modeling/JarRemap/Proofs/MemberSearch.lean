import JarRemap.Fixup.PackageAccess
import JarRemap.Proofs.PoolInvariant

/-!
# The search for a member among classes

A class name stands for the last class of the list that has it. From a class that does not declare a member, `Climbs`
goes to its super class, if this one is in the list. The search finds the declaration that is met first on
this way. Its fuel is enough: a way that ends passes no class twice, also where classes are in a circle.
-/
namespace JarRemap.PackageAccess

open List Outcome ClassTable

open Relation (ReflTransGen)

section paths

variable {step : Nat → Nat → Prop} {start bound : Nat} {path other : List Nat}

section

variable (functional : Relator.RightUnique step) (chain : (start :: path).IsChain step)
  (ends : ∀ next, ¬ step ((start :: path).getLast (cons_ne_nil _ _)) next)
include functional chain ends

theorem path_unique (chainToo : (start :: other).IsChain step)
    (endsToo : ∀ next, ¬ step ((start :: other).getLast (cons_ne_nil _ _)) next) : path = other := by
  induction path generalizing start other with
  | nil =>
    cases other with
    | nil => rfl
    | cons next other => exact absurd (isChain_cons_cons.mp chainToo).1 (ends next)
  | cons next path ih =>
    obtain ⟨here, later⟩ := isChain_cons_cons.mp chain
    cases other with
    | nil => exact absurd here (endsToo next)
    | cons another other =>
      obtain ⟨hereToo, laterToo⟩ := isChain_cons_cons.mp chainToo
      obtain rfl := functional here hereToo
      rw [getLast_cons_cons] at ends endsToo
      rw [ih later ends laterToo endsToo]

theorem nodup_path : (start :: path).Nodup := by
  induction path generalizing start with
  | nil => exact nodup_singleton start
  | cons next path ih =>
    have later := (isChain_cons_cons.mp chain).2
    rw [getLast_cons_cons] at ends
    refine nodup_cons.mpr ⟨fun again => ?_, ih later ends⟩
    obtain ⟨front, back, split⟩ := append_of_mem again
    have rest : (start :: back).IsChain step := by
      rw [split] at later
      exact later.right_of_append
    have restEnds : ∀ next, ¬ step ((start :: back).getLast (cons_ne_nil _ _)) next := by
      simpa only [split, getLast_append_of_ne_nil _ (cons_ne_nil start back)] using ends
    rw [← getLast_cons_cons] at ends
    have same : next :: path = back := path_unique functional chain ends rest restEnds
    have longer := congrArg length split
    rw [same, length_append, length_cons] at longer
    omega

theorem length_path_lt (bounded : ∀ here ∈ start :: path, here < bound) : path.length < bound := by
  have distinct := nodup_path functional chain ends
  have included : start :: path ⊆ range bound := fun here listed => mem_range.mpr (bounded here listed)
  simpa using (distinct.subperm included).length_le

end

end paths

section names

variable {files : List ClassFile} {names : List String} {name : String} {index : Nat}

def Named (files : List ClassFile) (index : Nat) (name : String) : Prop :=
  ∃ file, files[index]? = some file ∧ file.name = .ok name

/-- The name stands for the class at the position: no later class has it. -/
def Denotes (files : List ClassFile) (name : String) (index : Nat) : Prop :=
  Named files index name ∧ ∀ later, index < later → ¬ Named files later name

theorem Denotes.unique {other : Nat} (denotes : Denotes files name index) (denotesToo : Denotes files name other) :
    index = other := by
  rcases Nat.lt_trichotomy index other with before | same | after
  · exact absurd denotesToo.1 (denotes.2 other before)
  · exact same
  · exact absurd denotes.1 (denotesToo.2 index after)

def tableOf (files : List ClassFile) (names : List String) : ClassTable where
  files := files.toArray
  names := names.toArray
  positions := names.zipIdx.foldl (fun positions entry => positions.insert entry.1 entry.2) ∅

theorem getElem?_tableOf (index : Nat) : (tableOf files names).files[index]? = files[index]? := getElem?_toArray

def AreNames (files : List ClassFile) (names : List String) : Prop :=
  Forall₂ (fun file name => file.name = .ok name) files names

def Opened (classes : List ClassEntry) (files : List ClassFile) : Prop :=
  Forall₂ (fun entry file => ClassFile.read entry.bytes = .ok file) classes files

theorem read_eq_ok {classes : List ClassEntry} {table : ClassTable} : read classes = .ok table ↔
      ∃ files names, Opened classes files ∧ AreNames files names ∧ table = tableOf files names := by
  simp only [ClassTable.read, bind_eq_ok, mapM_eq_ok, within_eq_ok, pure_eq_ok]
  constructor
  · rintro ⟨files, parsed, names, named, rfl⟩
    exact ⟨files, names, parsed, named, rfl⟩
  · rintro ⟨files, names, parsed, named, rfl⟩
    exact ⟨files, parsed, names, named, rfl⟩

theorem AreNames.named_iff (areNames : AreNames files names) : Named files index name ↔ names[index]? = some name := by
  rw [Named]
  induction areNames generalizing index with
  | nil => simp
  | cons named _ ih =>
    cases index with
    | zero => simp [named]
    | succ index => simpa using ih

theorem positions_eq_some : (tableOf files names).positions.get? name = some index ↔
      names[index]? = some name ∧ ∀ later, index < later → names[later]? ≠ some name := by
  change (names.zipIdx.foldl (fun positions entry => positions.insert entry.1 entry.2)
    (∅ : Std.TreeMap String Nat))[name]? = some index ↔ _
  induction names using reverseRecOn with
  | nil => simp
  | append_singleton names last ih =>
    rw [zipIdx_append, foldl_append]
    simp only [zipIdx_cons, zipIdx_nil, foldl_cons, foldl_nil, Nat.zero_add,
      Std.TreeMap.getElem?_insert, Std.compare_eq_iff_eq]
    have held (position : Nat) : (names ++ [last])[position]? = some name ↔
        names[position]? = some name ∨ position = names.length ∧ last = name := by
      grind
    simp only [held, ne_eq]
    by_cases same : last = name
    · have inside (position : Nat) : names[position]? = some name → position < names.length :=
        fun found => (List.getElem?_eq_some_iff.mp found).1
      simp only [same, if_true, and_true, Option.some.injEq]
      constructor
      · rintro rfl
        refine ⟨.inr rfl, fun later behind => ?_⟩
        rintro (found | rfl)
        · exact absurd (inside later found) (by omega)
        · omega
      · rintro ⟨found | rfl, nothing⟩
        · exact absurd (.inr rfl) (nothing names.length (inside index found))
        · rfl
    · simpa [same] using ih

theorem AreNames.positions_iff (areNames : AreNames files names) :
    (tableOf files names).positions.get? name = some index ↔ Denotes files name index := by
  simp only [positions_eq_some, Denotes, areNames.named_iff, ne_eq]

end names

section members

variable {files : List ClassFile} {names : List String} {file : ClassFile} {pool : ConstantPool} {kind : MemberKind}
  {name descriptor : String} {members : List Member} {found : Option (AccessSite × UInt16)} {site : AccessSite}
  {flags : UInt16} {fuel start index next position : Nat} {member : Member}

def membersOf (file : ClassFile) : MemberKind → List Member
  | .field => file.fields
  | .method => file.methods

def flagsAt (files : List ClassFile) : AccessSite → Option UInt16
  | .ofClass index => files[index]?.map ClassFile.access
  | .ofMember kind index position => do
    let file ← files[index]?
    Member.access <$> (membersOf file kind)[position]?

def IsMember (pool : ConstantPool) (name descriptor : String) (member : Member) : Prop :=
  pool.text member.name = .ok name ∧ pool.text member.descriptor = .ok descriptor

/-- The first member of the list with the name and the descriptor stands at the position. -/
def StandsAt (pool : ConstantPool) (name descriptor : String) (members : List Member) (position : Nat) : Prop :=
  (∃ member, members[position]? = some member ∧ IsMember pool name descriptor member) ∧
  ∀ earlier < position, ∀ member, members[earlier]? = some member → ¬ IsMember pool name descriptor member

theorem StandsAt.unique {other : Nat} (stands : StandsAt pool name descriptor members position)
    (standsToo : StandsAt pool name descriptor members other) : position = other := by
  obtain ⟨⟨member, held, isMember⟩, first⟩ := stands
  obtain ⟨⟨another, heldToo, isMemberToo⟩, firstToo⟩ := standsToo
  rcases Nat.lt_trichotomy position other with before | same | after
  · exact absurd isMember (firstToo position before member held)
  · exact same
  · exact absurd isMemberToo (first other after another heldToo)

theorem standsAt_zero (isMember : IsMember pool name descriptor member) :
    StandsAt pool name descriptor (member :: members) 0 :=
  ⟨⟨member, rfl, isMember⟩, fun _ impossible => absurd impossible (Nat.not_lt_zero _)⟩

theorem StandsAt.cons (stands : StandsAt pool name descriptor members position)
    (other : ¬ IsMember pool name descriptor member) :
    StandsAt pool name descriptor (member :: members) (position + 1) := by
  refine ⟨stands.1, fun earlier before another held => ?_⟩
  cases earlier with
  | zero => exact Option.some.inj held ▸ other
  | succ earlier => exact stands.2 earlier (Nat.lt_of_succ_lt_succ before) another held

/-- The search gives the first member of the name and descriptor, if there is one. -/
theorem memberOf?_cases {result : Option (Nat × UInt16)}
    (run : memberOf? pool name descriptor start members = .ok result) :
    (result = none ∧ ∀ member ∈ members, ¬ IsMember pool name descriptor member) ∨
    ∃ position member, result = some (start + position, member.access) ∧ members[position]? = some member ∧
      StandsAt pool name descriptor members position := by
  induction members generalizing start with
  | nil => exact .inl ⟨(Except.ok.inj run).symm, by simp⟩
  | cons member members ih =>
    have skip (other : ¬ IsMember pool name descriptor member)
        (later : memberOf? pool name descriptor (start + 1) members = .ok result) :
        (result = none ∧ ∀ another ∈ member :: members, ¬ IsMember pool name descriptor another) ∨
        ∃ position another, result = some (start + position, another.access) ∧
          (member :: members)[position]? = some another ∧
          StandsAt pool name descriptor (member :: members) position := by
      rcases ih later with ⟨rfl, others⟩ | ⟨position, another, rfl, held, stands⟩
      · exact .inl ⟨rfl, forall_mem_cons.mpr ⟨other, others⟩⟩
      · exact .inr ⟨position + 1, another, by rw [Nat.add_right_comm, Nat.add_assoc], held, stands.cons other⟩
    simp only [memberOf?, bind_eq_ok] at run
    obtain ⟨spelled, read, run⟩ := run
    split at run
    case isFalse different =>
      refine skip (fun isMember => different ?_) run
      exact unique read isMember.1
    case isTrue same =>
      obtain ⟨typed, readType, rest⟩ := bind_eq_ok.mp run
      split at rest
      case isFalse different =>
        refine skip (fun isMember => different ?_) rest
        exact unique readType isMember.2
      case isTrue sameType =>
        subst same sameType
        exact .inr ⟨0, member, (pure_eq_ok.mp rest).symm, rfl, standsAt_zero ⟨read, readType⟩⟩

theorem findMember_none : (tableOf files names).findMember kind name descriptor fuel none = .ok none := by
  cases fuel <;> rfl

theorem findMember_outside (outside : files[index]? = none) :
    (tableOf files names).findMember kind name descriptor fuel (some index) = .ok none := by
  cases fuel with
  | zero => rfl
  | succ fuel =>
    rw [findMember, getElem?_tableOf, outside]
    rfl

/-- One step of the search gives what it finds in the class, or goes on with the class above. -/
theorem findMember_succ (held : files[index]? = some file) :
    (tableOf files names).findMember kind name descriptor (fuel + 1) (some index) =
      memberOf? file.pool name descriptor 0 (membersOf file kind) >>= fun found =>
        found.elim (file.superName? >>= fun above => (tableOf files names).findMember kind name descriptor fuel
          (above.bind (tableOf files names).positions.get?)) fun found =>
            pure (some (.ofMember kind index found.1, found.2)) := by
  rw [findMember, getElem?_tableOf, held]
  cases kind <;>
  · refine bind_congr fun found => ?_
    cases found <;> rfl

theorem findMember_cases (held : files[index]? = some file)
    (run : (tableOf files names).findMember kind name descriptor (fuel + 1) (some index) = .ok found) :
    (∃ position member, found = some (.ofMember kind index position, member.access) ∧
      (membersOf file kind)[position]? = some member ∧
      StandsAt file.pool name descriptor (membersOf file kind) position) ∨
    (∀ member ∈ membersOf file kind, ¬ IsMember file.pool name descriptor member) ∧
      ∃ above, file.superName? = .ok above ∧ (tableOf files names).findMember kind name descriptor fuel
        (above.bind (tableOf files names).positions.get?) = .ok found := by
  rw [findMember_succ held, bind_eq_ok] at run
  obtain ⟨result, searched, rest⟩ := run
  rcases memberOf?_cases searched with ⟨rfl, absent⟩ | ⟨position, member, rfl, listed, stands⟩
  · exact .inr ⟨absent, bind_eq_ok.mp rest⟩
  · rw [Nat.zero_add] at rest
    exact .inl ⟨position, member, (pure_eq_ok.mp rest).symm, listed, stands⟩

/-- One step up from a class that does not declare the member to its super class. -/
def Climbs (files : List ClassFile) (kind : MemberKind) (name descriptor : String) (index next : Nat) : Prop :=
  ∃ file above, files[index]? = some file ∧
    (∀ member ∈ membersOf file kind, ¬ IsMember file.pool name descriptor member) ∧
    file.superName? = .ok (some above) ∧ Denotes files above next

theorem climbs_rightUnique : Relator.RightUnique (Climbs files kind name descriptor) := by
  rintro index next other ⟨file, above, held, -, named, denotes⟩ ⟨fileToo, aboveToo, heldToo, -, namedToo, denotesToo⟩
  obtain rfl := Option.mem_unique held heldToo
  obtain rfl := Option.some.inj (unique named namedToo)
  exact denotes.unique denotesToo

/-- On the way up from the class at the start, the member is first declared in the class at the index, where it
stands at the position. -/
def Meets (files : List ClassFile) (kind : MemberKind) (name descriptor : String) (start index position : Nat) :
    Prop :=
  ReflTransGen (Climbs files kind name descriptor) start index ∧
    ∃ file, files[index]? = some file ∧ StandsAt file.pool name descriptor (membersOf file kind) position

theorem meets_of_findMember (areNames : AreNames files names)
    (run : (tableOf files names).findMember kind name descriptor fuel (some start) = .ok (some (site, flags))) :
    ∃ index position, site = .ofMember kind index position ∧ Meets files kind name descriptor start index position ∧
      flagsAt files site = some flags := by
  induction fuel generalizing start with
  | zero => cases run
  | succ fuel ih =>
    cases held : files[start]? with
    | none =>
      rw [findMember_outside held] at run
      cases run
    | some file =>
      rcases findMember_cases held run with ⟨position, member, found, listed, stands⟩ | ⟨absent, above, named, further⟩
      · cases found
        refine ⟨start, position, rfl, ⟨.refl, file, held, stands⟩, ?_⟩
        simp [flagsAt, held, listed]
      · cases known : above.bind (tableOf files names).positions.get? with
        | none =>
          rw [known, findMember_none] at further
          cases further
        | some next =>
          rw [known] at further
          obtain ⟨aboveName, rfl, stored⟩ := Option.bind_eq_some_iff.mp known
          obtain ⟨index, position, rfl, ⟨path, declared⟩, flagged⟩ := ih further
          have climbs : Climbs files kind name descriptor start next :=
            ⟨file, aboveName, held, absent, named, areNames.positions_iff.mp stored⟩
          exact ⟨index, position, rfl, ⟨.head climbs path, declared⟩, flagged⟩

theorem StandsAt.exists_isMember (stands : StandsAt pool name descriptor members position) :
    ∃ member ∈ members, IsMember pool name descriptor member := by
  obtain ⟨⟨member, held, isMember⟩, -⟩ := stands
  exact ⟨member, mem_of_getElem? held, isMember⟩

theorem findMember_of_path (areNames : AreNames files names)
    (chain : (start :: path).IsChain (Climbs files kind name descriptor))
    (held : files[(start :: path).getLast (cons_ne_nil _ _)]? = some file)
    (stands : StandsAt file.pool name descriptor (membersOf file kind) position) (enough : path.length < fuel)
    (run : (tableOf files names).findMember kind name descriptor fuel (some start) = .ok found) :
    ∃ flags, found = some (.ofMember kind ((start :: path).getLast (cons_ne_nil _ _)) position, flags) := by
  induction path generalizing start fuel with
  | nil =>
    obtain ⟨fuel, rfl⟩ := Nat.exists_eq_add_one.mpr enough
    rcases findMember_cases held run with ⟨other, member, rfl, -, standsToo⟩ | ⟨absent, -⟩
    · obtain rfl := stands.unique standsToo
      exact ⟨_, rfl⟩
    · obtain ⟨member, listed, isMember⟩ := stands.exists_isMember
      exact absurd isMember (absent member listed)
  | cons next path ih =>
    obtain ⟨fuel, rfl⟩ := Nat.exists_eq_add_one.mpr (Nat.zero_lt_of_lt enough)
    obtain ⟨⟨below, above, heldBelow, absent, named, denotes⟩, later⟩ := isChain_cons_cons.mp chain
    rw [getLast_cons_cons] at held ⊢
    rcases findMember_cases heldBelow run with ⟨other, member, -, -, standsToo⟩ | ⟨-, aboveToo, namedToo, further⟩
    · obtain ⟨member, listed, isMember⟩ := standsToo.exists_isMember
      exact absurd isMember (absent member listed)
    · obtain rfl := unique named namedToo
      rw [Option.bind_some, areNames.positions_iff.mpr denotes] at further
      exact ih later held (Nat.lt_of_succ_lt_succ enough) further

theorem Meets.not_climbs (meets : Meets files kind name descriptor start index position) (next : Nat) :
    ¬ Climbs files kind name descriptor index next := by
  obtain ⟨-, file, held, stands⟩ := meets
  rintro ⟨fileToo, -, heldToo, absent, -⟩
  obtain rfl := Option.mem_unique held heldToo
  obtain ⟨member, listed, isMember⟩ := stands.exists_isMember
  exact absent member listed isMember

theorem Climbs.lt_length (climbs : Climbs files kind name descriptor index next) : index < files.length := by
  obtain ⟨file, -, held, -⟩ := climbs
  exact (List.getElem?_eq_some_iff.mp held).1

/-- With fuel for every class and one more, the search finds exactly what is met first on the way up. -/
theorem findMember_eq_some (areNames : AreNames files names)
    (run : (tableOf files names).findMember kind name descriptor (files.length + 1) (some start) = .ok found) :
    found = some (site, flags) ↔ ∃ index position, site = .ofMember kind index position ∧
      Meets files kind name descriptor start index position ∧ flagsAt files site = some flags := by
  constructor
  · rintro rfl
    exact meets_of_findMember areNames run
  · rintro ⟨index, position, rfl, meets, flagged⟩
    obtain ⟨path, chain, rfl⟩ := exists_isChain_cons_of_relationReflTransGen meets.1
    obtain ⟨file, held, stands⟩ := meets.2
    have lastInside := (List.getElem?_eq_some_iff.mp held).1
    have inside : ∀ here ∈ start :: path, here < files.length :=
      chain.backwards_cons_induction _ _ rfl (fun _ _ climbs _ => climbs.lt_length) lastInside
    have enough := length_path_lt climbs_rightUnique chain meets.not_climbs inside
    obtain ⟨given, rfl⟩ := findMember_of_path areNames chain held stands (Nat.lt_succ_of_lt enough) run
    obtain ⟨-, -, -, -, flaggedToo⟩ := meets_of_findMember areNames run
    rw [Option.mem_unique flagged flaggedToo]

end members

end JarRemap.PackageAccess

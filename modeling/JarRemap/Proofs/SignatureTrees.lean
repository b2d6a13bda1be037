import JarRemap.Proofs.SteadyNames

/-!
# Signatures as trees

A signature is the print of a tree: of a class with its super class and interfaces, of a method with what it
takes, returns and throws, or of a field with its type. Mapping a signature never builds that tree. It reads
the text from front to back, peeking at most one character ahead, and yet does what renaming the classes in the
tree and printing it again would do.

What is said of a piece of text leaves open what comes behind it, and twice the length of the piece bounds the
depth that is needed to read it.
-/
namespace JarRemap.Signature

open List Signature Text Tree

variable {bound : List Char}

/-- The characters that a name cannot have. -/
def reserved : List Char := [';', ':', '.', '<', '>', '[']

/-- A name as it stands in a signature. The name of a class may have slashes. -/
structure Identifier where
  chars : List Char
  nonempty : chars ≠ []
  plain : ∀ c ∈ chars, c ∉ reserved

inductive Primitive where
  | byte
  | char
  | double
  | float
  | int
  | long
  | short
  | boolean
deriving DecidableEq

def Primitive.letter : Primitive → Char
  | byte => 'B'
  | char => 'C'
  | double => 'D'
  | float => 'F'
  | int => 'I'
  | long => 'J'
  | short => 'S'
  | boolean => 'Z'

mutual

/-- Any type. The names in it are of the type `ν`. -/
inductive JavaType (ν : Type) where
  | primitive (kind : Primitive)
  | reference (type : ReferenceType ν)

inductive ReferenceType (ν : Type) where
  | object (type : ClassType ν)
  | typeVariable (name : ν)
  | array (element : JavaType ν)

/-- A class with its type arguments, and the inner classes that lead on from it with theirs. -/
inductive ClassType (ν : Type) where
  | mk (name : ν) (arguments : List (TypeArgument ν)) (inner : List (ν × List (TypeArgument ν)))

/-- What stands for a type parameter. -/
inductive TypeArgument (ν : Type) where
  | wildcard
  | exact (type : ReferenceType ν)
  | upper (bound : ReferenceType ν)
  | lower (bound : ReferenceType ν)

end

/-- A type parameter has at least one bound. -/
structure TypeParameter (ν : Type) where
  name : ν
  classBound : Option (ReferenceType ν)
  interfaceBounds : List (ReferenceType ν)
  bounded : classBound.isSome ∨ interfaceBounds ≠ []

inductive ThrownType (ν : Type) where
  | object (type : ClassType ν)
  | typeVariable (name : ν)

/-- A whole signature. A method without a result returns nothing. -/
inductive Tree (ν : Type) where
  | ofClass (parameters : List (TypeParameter ν)) (superclass : ClassType ν) (interfaces : List (ClassType ν))
  | ofMethod (parameters : List (TypeParameter ν)) (arguments : List (JavaType ν))
    (result : Option (JavaType ν)) (thrown : List (ThrownType ν))
  | ofField (type : ReferenceType ν)

section printing

variable {ν : Type} (spell : ν → List Char)

def bracketed {α : Type} (list : List α) (inside : List Char) : List Char :=
  if list.isEmpty then [] else '<' :: inside ++ ['>']

mutual

def JavaType.print : JavaType ν → List Char
  | .primitive kind => [kind.letter]
  | .reference type => type.print

def ReferenceType.print : ReferenceType ν → List Char
  | .object type => type.print
  | .typeVariable name => 'T' :: spell name ++ [';']
  | .array element => '[' :: element.print

def ClassType.print : ClassType ν → List Char
  | .mk name arguments inner =>
    'L' :: spell name ++ (bracketed arguments (printArguments arguments) ++ (printInner inner ++ [';']))

def TypeArgument.print : TypeArgument ν → List Char
  | .wildcard => ['*']
  | .exact type => type.print
  | .upper bound => '+' :: bound.print
  | .lower bound => '-' :: bound.print

def printArguments : List (TypeArgument ν) → List Char
  | [] => []
  | argument :: others => argument.print ++ printArguments others

def printInner : List (ν × List (TypeArgument ν)) → List Char
  | [] => []
  | (name, arguments) :: others =>
    '.' :: spell name ++ (bracketed arguments (printArguments arguments) ++ printInner others)

end

/-- A colon stands before each bound, and before the missing one of a parameter without a class bound. -/
def TypeParameter.print (parameter : TypeParameter ν) : List Char :=
  spell parameter.name ++ ':' :: (parameter.classBound.elim [] (ReferenceType.print spell) ++
    parameter.interfaceBounds.flatMap fun bound => ':' :: bound.print spell)

def ThrownType.print : ThrownType ν → List Char
  | .object type => '^' :: type.print spell
  | .typeVariable name => '^' :: (ReferenceType.typeVariable name).print spell

def printParameters (parameters : List (TypeParameter ν)) : List Char :=
  bracketed parameters (parameters.flatMap (TypeParameter.print spell))

def Tree.print : Tree ν → List Char
  | .ofClass parameters superclass interfaces =>
    printParameters spell parameters ++ (superclass.print spell ++ interfaces.flatMap (ClassType.print spell))
  | .ofMethod parameters arguments result thrown =>
    printParameters spell parameters ++ '(' :: (arguments.flatMap (JavaType.print spell) ++
      ')' :: (result.elim ['V'] (JavaType.print spell) ++ thrown.flatMap (ThrownType.print spell)))
  | .ofField type => type.print spell

end printing

section renames

/-- What the new name of an inner class adds to that of the class around it: all that follows this and a dollar
sign, or else what follows the last dollar sign, or else all of it. -/
def addedPart (enclosing name : List Char) : List Char :=
  if enclosing ++ ['$'] <+: name then name.drop (enclosing.length + 1) else name.rtakeWhile (· ≠ '$')

variable (newName : List Char → List Char)

mutual

def JavaType.renamed : JavaType Identifier → JavaType (List Char)
  | .primitive kind => .primitive kind
  | .reference type => .reference type.renamed

def ReferenceType.renamed : ReferenceType Identifier → ReferenceType (List Char)
  | .object type => .object type.renamed
  | .typeVariable name => .typeVariable name.chars
  | .array element => .array element.renamed

def ClassType.renamed : ClassType Identifier → ClassType (List Char)
  | .mk name arguments inner =>
    .mk (newName name.chars) (renamedArguments arguments) (renamedInner name.chars inner)

def TypeArgument.renamed : TypeArgument Identifier → TypeArgument (List Char)
  | .wildcard => .wildcard
  | .exact type => .exact type.renamed
  | .upper bound => .upper bound.renamed
  | .lower bound => .lower bound.renamed

def renamedArguments : List (TypeArgument Identifier) → List (TypeArgument (List Char))
  | [] => []
  | argument :: others => argument.renamed :: renamedArguments others

/-- The class around the first inner class is called `enclosing`. -/
def renamedInner (enclosing : List Char) :
    List (Identifier × List (TypeArgument Identifier)) → List (List Char × List (TypeArgument (List Char)))
  | [] => []
  | (name, arguments) :: others =>
    (addedPart (newName enclosing) (newName (enclosing ++ '$' :: name.chars)), renamedArguments arguments) ::
      renamedInner (enclosing ++ '$' :: name.chars) others

end

def TypeParameter.renamed (parameter : TypeParameter Identifier) : TypeParameter (List Char) where
  name := parameter.name.chars
  classBound := parameter.classBound.map (ReferenceType.renamed newName)
  interfaceBounds := parameter.interfaceBounds.map (ReferenceType.renamed newName)
  bounded := by simpa using parameter.bounded

def ThrownType.renamed : ThrownType Identifier → ThrownType (List Char)
  | .object type => .object (type.renamed newName)
  | .typeVariable name => .typeVariable name.chars

/-- The tree with the names of its classes replaced. Type variables and type parameters keep theirs. -/
def Tree.renamed : Tree Identifier → Tree (List Char)
  | .ofClass parameters superclass interfaces =>
    .ofClass (parameters.map (TypeParameter.renamed newName)) (superclass.renamed newName)
      (interfaces.map (ClassType.renamed newName))
  | .ofMethod parameters arguments result thrown =>
    .ofMethod (parameters.map (TypeParameter.renamed newName)) (arguments.map (JavaType.renamed newName))
      (result.map (JavaType.renamed newName)) (thrown.map (ThrownType.renamed newName))
  | .ofField type => .ofField (type.renamed newName)

theorem innerPart_eq_addedPart (enclosing name : List Char) : innerPart enclosing name = addedPart enclosing name := by
  by_cases follows : enclosing ++ ['$'] <+: name
  · obtain ⟨rest, rfl⟩ := follows
    have dropped : dropStart? (enclosing ++ ['$']) (enclosing ++ ['$'] ++ rest) = some rest :=
      dropStart?_eq_some.mpr rfl
    rw [innerPart, dropped, addedPart, if_pos (prefix_append _ _)]
    simp
  · have kept : dropStart? (enclosing ++ ['$']) name = none := by
      refine Option.eq_none_iff_forall_ne_some.mpr fun rest dropped => follows ?_
      exact ⟨rest, (dropStart?_eq_some.mp dropped).symm⟩
    rw [innerPart, kept, addedPart, if_neg follows]
    cases found : cutLast? '$' name with
    | none =>
      have absent := cutLast?_eq_none.mp found
      refine (rtakeWhile_eq_self_iff.mpr fun c listed => ?_).symm
      simpa using fun same : c = '$' => absent (same ▸ listed)
    | some cut =>
      obtain ⟨before, rest⟩ := cut
      obtain ⟨rfl, absent⟩ := cutLast?_eq_some.mp found
      have plain : ∀ c ∈ rest.reverse, (decide (c ≠ '$')) = true := by
        intro c listed
        simpa using fun same : c = '$' => absent (same ▸ mem_reverse.mp listed)
      simp only [List.rtakeWhile, reverse_append, reverse_cons, append_assoc]
      rw [takeWhile_append_of_pos plain]
      simp

end renames

section pieces

variable {renamer : Renamer} {newName : List Char → List Char}
  {text out name mapped written stops : List Char} {ν : Type}

/-- The renamer never fails to name a class, and these are the names. -/
def NamesClasses (renamer : Renamer) (newName : List Char → List Char) : Prop :=
  ∀ name, renamer.mapClass (String.ofList name) = .ok (String.ofList (newName name))

/-- A step takes the text off the front of whatever comes behind it, and writes `out`. -/
def Takes (step : Nat → List Char → Outcome (List Char × List Char)) (text out : List Char) : Prop :=
  ∀ fuel rest, 2 * text.length ≤ fuel → step fuel (text ++ rest) = .ok (out, rest)

theorem Takes.intro {step : Nat → List Char → Outcome (List Char × List Char)} {c : Char}
    (each : ∀ less rest, 2 * text.length < less → step (less + 1) (c :: text ++ rest) = .ok (out, rest)) :
    Takes step (c :: text) out := by
  intro fuel rest enough
  rw [length_cons] at enough
  obtain _ | less := fuel
  · omega
  · exact each less rest (by omega)

def Begins (marks text : List Char) : Prop := ∃ c rest, text = c :: rest ∧ c ∈ marks

def referenceMarks : List Char := ['L', 'T', '[']

theorem Begins.append (begins : Begins marks text) (more : List Char) : Begins marks (text ++ more) := by
  obtain ⟨c, rest, rfl, listed⟩ := begins
  exact ⟨c, rest ++ more, rfl, listed⟩

theorem begins_self (c : Char) (rest : List Char) : Begins [c] (c :: rest) := ⟨c, rest, rfl, mem_singleton_self _⟩

theorem identifier_append (free : ∀ c ∈ name, c ∉ stops) (ends : Begins stops text) :
    identifier stops (name ++ text) = .ok (name, text) := by
  obtain ⟨stop, rest, rfl, listed⟩ := ends
  have inside : ∀ c ∈ name, (!stops.contains c) = true := by simpa using free
  have taken : (name ++ stop :: rest).takeWhile (!stops.contains ·) = name := by
    rw [takeWhile_append_of_pos inside, takeWhile_cons_of_neg (by simpa using listed), append_nil]
  have left : (name ++ stop :: rest).dropWhile (!stops.contains ·) = stop :: rest := by
    rw [dropWhile_append_of_pos inside, dropWhile_cons_of_neg (by simpa using listed)]
  simp only [identifier, span_eq_takeWhile_dropWhile, taken, left]
  rfl

theorem Identifier.free (name : Identifier) (marks : stops ⊆ reserved) : ∀ c ∈ name.chars, c ∉ stops :=
  fun c listed stop => name.plain c listed (marks stop)

theorem takes_primitive (kind : Primitive) : Takes (type renamer) [kind.letter] [kind.letter] := by
  refine .intro fun less rest _ => ?_
  cases kind <;> rfl

theorem takes_typeVariable (name : Identifier) :
    Takes (type renamer) ('T' :: name.chars ++ [';']) ('T' :: name.chars ++ [';']) := by
  refine .intro fun less rest _ => ?_
  have named : identifier [';'] (name.chars ++ ';' :: rest) = .ok (name.chars, ';' :: rest) :=
    identifier_append (name.free (by decide)) (begins_self ';' rest)
  simp [type, primitives, named]

theorem Takes.array (element : Takes (type renamer) text out) : Takes (type renamer) ('[' :: text) ('[' :: out) := by
  refine .intro fun less rest enough => ?_
  simp [type, primitives, element less rest (by omega)]

theorem takes_finish : Takes (fun fuel => classParts renamer fuel name mapped) [';'] [';'] := by
  refine .intro fun less rest _ => ?_
  simp [classParts]

theorem Takes.arguments (arguments : Takes (typeArguments renamer) inside written)
    (parts : Takes (fun fuel => classParts renamer fuel name mapped) text out) :
    Takes (fun fuel => classParts renamer fuel name mapped) ('<' :: (inside ++ text)) ('<' :: written ++ out) := by
  refine .intro fun less rest enough => ?_
  rw [length_append] at enough
  have further : classParts renamer less name mapped (text ++ rest) = .ok (out, rest) := parts less rest (by omega)
  simp [classParts, arguments less (text ++ rest) (by omega), further]

theorem takes_closing : Takes (typeArguments renamer) ['>'] ['>'] := by
  refine .intro fun less rest _ => ?_
  simp [typeArguments]

theorem Takes.wildcard (others : Takes (typeArguments renamer) text out) :
    Takes (typeArguments renamer) ('*' :: text) ('*' :: out) := by
  refine .intro fun less rest enough => ?_
  simp [typeArguments, others less rest (by omega)]

theorem Takes.bounded {mark : Char} (marks : mark = '+' ∨ mark = '-')
    (first : Takes (type renamer) bound written) (others : Takes (typeArguments renamer) text out) :
    Takes (typeArguments renamer) (mark :: (bound ++ text)) (mark :: written ++ out) := by
  refine .intro fun less rest enough => ?_
  rw [length_append] at enough
  have here := first less (text ++ rest) (by omega)
  have further := others less rest (by omega)
  rcases marks with rfl | rfl <;> simp [typeArguments, here, further]

theorem Takes.argument {argument : List Char} (begins : Begins referenceMarks argument) (remains : text ≠ [])
    (first : Takes (type renamer) argument written) (others : Takes (typeArguments renamer) text out) :
    Takes (typeArguments renamer) (argument ++ text) (written ++ out) := by
  obtain ⟨c, more, rfl, listed⟩ := begins
  rw [cons_append]
  refine .intro fun less rest enough => ?_
  have left : 0 < text.length := length_pos_of_ne_nil remains
  rw [length_append] at enough
  have here : type renamer less (c :: (more ++ (text ++ rest))) = .ok (written, text ++ rest) :=
    first less (text ++ rest) (by rw [length_cons]; omega)
  have further := others less rest (by omega)
  simp only [referenceMarks, mem_cons, not_mem_nil, or_false] at listed
  rcases listed with rfl | rfl | rfl <;> simp [typeArguments, here, further]

theorem begins_bracketed {α : Type} (list : List α) (inside : List Char) (begins : Begins namePartStops text) :
    Begins namePartStops (bracketed list inside ++ text) := by
  cases list with
  | nil => exact begins
  | cons => exact ⟨'<', _, rfl, by decide⟩

theorem begins_printInner (spell : ν → List Char) (inner : List (ν × List (TypeArgument ν))) :
    Begins namePartStops (printInner spell inner ++ [';']) := by
  cases inner with
  | nil => exact ⟨';', _, rfl, by decide⟩
  | cons => exact ⟨'.', _, rfl, by decide⟩

theorem ReferenceType.begins (spell : ν → List Char) (type : ReferenceType ν) :
    Begins referenceMarks (type.print spell) := by
  cases type with
  | object type =>
    cases type
    exact ⟨'L', _, rfl, by decide⟩
  | typeVariable => exact ⟨'T', _, rfl, by decide⟩
  | array => exact ⟨'[', _, rfl, by decide⟩

theorem Takes.bracketed {α β : Type} {list : List α} {others : List β}
    (same : others.isEmpty = list.isEmpty)
    (arguments : Takes (typeArguments renamer) (inside ++ ['>']) (written ++ ['>']))
    (parts : Takes (fun fuel => classParts renamer fuel name mapped) text out) :
    Takes (fun fuel => classParts renamer fuel name mapped) (bracketed list inside ++ text)
      (bracketed others written ++ out) := by
  rw [Signature.bracketed, Signature.bracketed, same]
  cases list.isEmpty with
  | true => exact parts
  | false => simpa using arguments.arguments parts

theorem isEmpty_renamedArguments (newName : List Char → List Char) (arguments : List (TypeArgument Identifier)) :
    (renamedArguments newName arguments).isEmpty = arguments.isEmpty := by
  cases arguments <;> rfl

/-- Bounds are read up to the first character that is no colon. -/
def TakesBounds (renamer : Renamer) (text out : List Char) : Prop :=
  ∀ fuel rest, 2 * text.length + 1 ≤ fuel → rest.head? ≠ some ':' →
    typeBounds renamer fuel (text ++ rest) = .ok (out, rest)

theorem takesBounds_nil : TakesBounds renamer [] [] := by
  intro fuel rest enough ends
  obtain _ | less := fuel
  · omega
  rw [nil_append, typeBounds]
  rintro more rfl
  exact ends rfl

theorem TakesBounds.type (begins : Begins referenceMarks bound)
    (first : Takes (type renamer) bound written) (others : TakesBounds renamer text out) :
    TakesBounds renamer (':' :: bound ++ text) (':' :: written ++ out) := by
  intro fuel rest enough ends
  rw [cons_append, length_cons, length_append] at enough
  obtain _ | less := fuel
  · omega
  have here := first less (text ++ rest) (by omega)
  have further := others less rest (by omega) ends
  obtain ⟨c, more, rfl, listed⟩ := begins
  have marks : c = 'L' ∨ c = 'T' ∨ c = '[' := by simpa [referenceMarks] using listed
  rw [cons_append] at here
  simp [typeBounds, marks, here, further, or_assoc]

theorem TakesBounds.absent (begins : Begins [':'] text) (others : TakesBounds renamer text out) :
    TakesBounds renamer (':' :: text) (':' :: out) := by
  intro fuel rest enough ends
  rw [length_cons] at enough
  obtain _ | less := fuel
  · omega
  have further := others less rest (by omega) ends
  obtain ⟨c, more, rfl, listed⟩ := begins
  obtain rfl := mem_singleton.mp listed
  rw [cons_append] at further ⊢
  rw [cons_append, typeBounds]
  simp [further]

theorem head?_printed_ne_colon (parameters : List (TypeParameter Identifier)) (rest : List Char) :
    (parameters.flatMap (TypeParameter.print Identifier.chars) ++ '>' :: rest).head? ≠ some ':' := by
  cases parameters with
  | nil => simp
  | cons parameter others =>
    obtain ⟨c, chars, spelled⟩ := exists_cons_of_ne_nil parameter.name.nonempty
    have plain : c ∉ reserved := parameter.name.plain c (spelled ▸ mem_cons_self)
    have other : c ≠ ':' := fun same => plain (same ▸ by decide)
    simpa [TypeParameter.print, spelled] using other

/-- The whole text is read as a sequence of types and marks, and `out` is written. -/
def Maps (renamer : Renamer) (text out : List Char) : Prop :=
  ∀ fuel, 2 * text.length + 1 ≤ fuel → sequence renamer fuel text = .ok out

def typeMarks : List Char := primitives ++ referenceMarks

theorem maps_nil : Maps renamer [] [] := by
  intro fuel _
  cases fuel <;> rfl

theorem Maps.mark {c : Char} (listed : c ∈ ['(', ')', '^']) (others : Maps renamer text out) :
    Maps renamer (c :: text) (c :: out) := by
  intro fuel enough
  rw [length_cons] at enough
  obtain _ | less := fuel
  · omega
  have marks : (c = '(' || c = ')' || c = '^') = true := by simpa [or_assoc] using listed
  rw [sequence, if_pos marks, others less (by omega)]
  rfl

theorem Maps.type {first : List Char} (begins : Begins typeMarks first)
    (here : Takes (type renamer) first written) (others : Maps renamer text out) :
    Maps renamer (first ++ text) (written ++ out) := by
  intro fuel enough
  obtain ⟨c, more, rfl, listed⟩ := begins
  rw [length_append, length_cons] at enough
  obtain _ | less := fuel
  · omega
  have unmarked : ¬(c = '(' || c = ')' || c = '^') = true := by
    rintro marked
    simp only [Bool.or_eq_true, decide_eq_true_eq] at marked
    rcases marked with (rfl | rfl) | rfl <;> simp [typeMarks, primitives, referenceMarks] at listed
  have first := here less text (by rw [length_cons]; omega)
  rw [cons_append] at first ⊢
  rw [sequence, if_neg unmarked, first]
  simp [others less (by omega)]

theorem Maps.list {α : Type} {spelled written : α → List Char}
    (each : ∀ item {text out}, Maps renamer text out → Maps renamer (spelled item ++ text) (written item ++ out))
    (items : List α) (others : Maps renamer text out) :
    Maps renamer (items.flatMap spelled ++ text) (items.flatMap written ++ out) := by
  induction items with
  | nil => exact others
  | cons item items ih => simpa using each item ih

theorem JavaType.begins (spell : ν → List Char) (type : JavaType ν) :
    Begins typeMarks (type.print spell) := by
  cases type with
  | primitive kind => exact ⟨kind.letter, [], rfl, by cases kind <;> decide⟩
  | reference type =>
    obtain ⟨c, rest, printed, listed⟩ := type.begins spell
    exact ⟨c, rest, printed, mem_append_right _ listed⟩

section trees

variable (answers : NamesClasses renamer newName)

include answers in
theorem Takes.object (name : Identifier) (ends : Begins namePartStops text)
    (parts : Takes (fun fuel => classParts renamer fuel name.chars (newName name.chars)) text out) :
    Takes (type renamer) ('L' :: (name.chars ++ text)) ('L' :: newName name.chars ++ out) := by
  refine .intro fun less rest enough => ?_
  rw [length_append] at enough
  have named := identifier_append (name.free (by decide)) (ends.append rest)
  have further : classParts renamer less name.chars (newName name.chars) (text ++ rest) = .ok (out, rest) :=
    parts less rest (by omega)
  simp [type, primitives, named, answers name.chars, further]

include answers in
theorem Takes.inner (part : Identifier) (ends : Begins namePartStops text)
    (parts : Takes (fun fuel => classParts renamer fuel (name ++ '$' :: part.chars)
      (newName (name ++ '$' :: part.chars))) text out) :
    Takes (fun fuel => classParts renamer fuel name (newName name)) ('.' :: (part.chars ++ text))
      ('.' :: addedPart (newName name) (newName (name ++ '$' :: part.chars)) ++ out) := by
  refine .intro fun less rest enough => ?_
  rw [length_append] at enough
  have named := identifier_append (part.free (by decide)) (ends.append rest)
  have further : classParts renamer less (name ++ '$' :: part.chars) (newName (name ++ '$' :: part.chars))
      (text ++ rest) = .ok (out, rest) := parts less rest (by omega)
  simp [classParts, named, answers (name ++ '$' :: part.chars), further, innerPart_eq_addedPart, -String.ofList_append]

mutual

/-- A type is written as it is printed after its classes were renamed. The induction is on the tree. -/
theorem JavaType.takes (answers : NamesClasses renamer newName) : ∀ type : JavaType Identifier,
    Takes (Signature.type renamer) (type.print Identifier.chars) ((type.renamed newName).print id)
  | .primitive kind => takes_primitive kind
  | .reference type => type.takes answers

theorem ReferenceType.takes (answers : NamesClasses renamer newName) : ∀ type : ReferenceType Identifier,
    Takes (Signature.type renamer) (type.print Identifier.chars) ((type.renamed newName).print id)
  | .object type => type.takes answers
  | .typeVariable name => takes_typeVariable name
  | .array element => (element.takes answers).array

theorem ClassType.takes (answers : NamesClasses renamer newName) : ∀ type : ClassType Identifier,
    Takes (Signature.type renamer) (type.print Identifier.chars) ((type.renamed newName).print id)
  | .mk name arguments inner => by
    have parts := Takes.bracketed (isEmpty_renamedArguments newName arguments) (takes_arguments answers arguments)
      (takes_inner answers name.chars inner)
    exact Takes.object answers name (begins_bracketed _ _ (begins_printInner _ inner)) parts

theorem takes_arguments (answers : NamesClasses renamer newName) :
    ∀ arguments : List (TypeArgument Identifier),
    Takes (typeArguments renamer) (printArguments Identifier.chars arguments ++ ['>'])
      (printArguments id (renamedArguments newName arguments) ++ ['>'])
  | [] => takes_closing
  | .wildcard :: others => (takes_arguments answers others).wildcard
  | .exact type :: others => by
    have here :=
      Takes.argument (type.begins Identifier.chars) (by simp) (type.takes answers) (takes_arguments answers others)
    simpa [printArguments, TypeArgument.print, renamedArguments, TypeArgument.renamed] using here
  | .upper bound :: others => by
    have here := Takes.bounded (.inl rfl) (bound.takes answers) (takes_arguments answers others)
    simpa [printArguments, TypeArgument.print, renamedArguments, TypeArgument.renamed] using here
  | .lower bound :: others => by
    have here := Takes.bounded (.inr rfl) (bound.takes answers) (takes_arguments answers others)
    simpa [printArguments, TypeArgument.print, renamedArguments, TypeArgument.renamed] using here

theorem takes_inner (answers : NamesClasses renamer newName) :
    ∀ (name : List Char) (inner : List (Identifier × List (TypeArgument Identifier))),
    Takes (fun fuel => classParts renamer fuel name (newName name))
      (printInner Identifier.chars inner ++ [';']) (printInner id (renamedInner newName name inner) ++ [';'])
  | _, [] => takes_finish
  | name, (part, arguments) :: others => by
    have parts := Takes.bracketed (isEmpty_renamedArguments newName arguments) (takes_arguments answers arguments)
      (takes_inner answers (name ++ '$' :: part.chars) others)
    have here := Takes.inner answers part (begins_bracketed _ _ (begins_printInner _ others)) parts
    simpa [printInner, renamedInner] using here

end

include answers

theorem takesBounds_interfaces (bounds : List (ReferenceType Identifier)) :
    TakesBounds renamer (bounds.flatMap fun bound => ':' :: bound.print Identifier.chars)
      ((bounds.map (ReferenceType.renamed newName)).flatMap fun bound => ':' :: bound.print id) := by
  induction bounds with
  | nil => exact takesBounds_nil
  | cons bound others ih =>
    exact TakesBounds.type (bound.begins Identifier.chars) (bound.takes answers) ih

/-- What stands behind the name of a parameter. Without a class bound there is an interface bound, so that the
first colon is followed by the second. -/
theorem TypeParameter.takesBounds (parameter : TypeParameter Identifier) :
    ∃ text out, parameter.print Identifier.chars = parameter.name.chars ++ ':' :: text ∧
      (parameter.renamed newName).print id = parameter.name.chars ++ ':' :: out ∧
      TakesBounds renamer (':' :: text) (':' :: out) := by
  obtain ⟨name, classBound, interfaceBounds, bounded⟩ := parameter
  refine ⟨_, _, rfl, rfl, ?_⟩
  have interfaces := takesBounds_interfaces answers interfaceBounds
  cases classBound with
  | some bound => exact TakesBounds.type (bound.begins Identifier.chars) (bound.takes answers) interfaces
  | none =>
    cases interfaceBounds with
    | nil => simp at bounded
    | cons bound others => exact TakesBounds.absent (begins_self ':' _) interfaces

/-- Type parameters are read one by one up to the closing bracket. A name cannot be taken for it. -/
theorem takes_parameters (parameters : List (TypeParameter Identifier)) :
    Takes (typeParameters renamer) (parameters.flatMap (TypeParameter.print Identifier.chars) ++ ['>'])
      ((parameters.map (TypeParameter.renamed newName)).flatMap (TypeParameter.print id) ++ ['>']) := by
  induction parameters with
  | nil =>
    refine .intro fun less rest _ => ?_
    simp [typeParameters]
  | cons parameter others ih =>
    intro fuel rest enough
    obtain ⟨text, out, printed, reprinted, bounds⟩ := parameter.takesBounds answers
    obtain ⟨c, chars, spelled⟩ := exists_cons_of_ne_nil parameter.name.nonempty
    have plain : c ∉ reserved := parameter.name.plain c (spelled ▸ mem_cons_self)
    have opens : c ≠ '>' := fun same => plain (same ▸ by decide)
    simp only [flatMap_cons, printed, spelled, length_append, length_cons] at enough
    obtain _ | less := fuel
    · omega
    have further := ih less rest (by rw [length_append, length_cons]; omega)
    have bounded := bounds less (others.flatMap (TypeParameter.print Identifier.chars) ++ '>' :: rest)
      (by rw [length_cons]; omega) (head?_printed_ne_colon others rest)
    have named := identifier_append (parameter.name.free (by decide : [':'] ⊆ reserved))
      (begins_self ':' (text ++ (others.flatMap (TypeParameter.print Identifier.chars) ++ '>' :: rest)))
    rw [spelled] at named
    simp only [append_assoc, cons_append, nil_append] at further bounded named
    simp [printed, reprinted, spelled, typeParameters, opens, named, bounded, further]

theorem JavaType.maps (type : JavaType Identifier) (others : Maps renamer text out) :
    Maps renamer (type.print Identifier.chars ++ text) ((type.renamed newName).print id ++ out) :=
  others.type (type.begins _) (type.takes answers)

theorem ReferenceType.maps (type : ReferenceType Identifier) (others : Maps renamer text out) :
    Maps renamer (type.print Identifier.chars ++ text) ((type.renamed newName).print id ++ out) :=
  (JavaType.reference type).maps answers others

theorem ClassType.maps (type : ClassType Identifier) (others : Maps renamer text out) :
    Maps renamer (type.print Identifier.chars ++ text) ((type.renamed newName).print id ++ out) :=
  (ReferenceType.object type).maps answers others

theorem ThrownType.maps (type : ThrownType Identifier) (others : Maps renamer text out) :
    Maps renamer (type.print Identifier.chars ++ text) ((type.renamed newName).print id ++ out) := by
  cases type with
  | object type => exact (type.maps answers others).mark (by decide)
  | typeVariable name => exact ((ReferenceType.typeVariable name).maps answers others).mark (by decide)

theorem maps_result (result : Option (JavaType Identifier)) (others : Maps renamer text out) :
    Maps renamer (result.elim ['V'] (JavaType.print Identifier.chars) ++ text)
      ((result.map (JavaType.renamed newName)).elim ['V'] (JavaType.print id) ++ out) := by
  cases result with
  | some type => exact type.maps answers others
  | none =>
    have void : Takes (type renamer) ['V'] ['V'] := by
      exact .intro fun _ _ _ => rfl
    exact others.type ⟨'V', [], rfl, by decide⟩ void

theorem map_printParameters
    (parameters : List (TypeParameter Identifier)) (unopened : '<' ∉ marks) (begins : Begins marks text)
    (others : Maps renamer text out) : map renamer (printParameters Identifier.chars parameters ++ text) =
      .ok (printParameters id (parameters.map (TypeParameter.renamed newName)) ++ out) := by
  cases parameters with
  | nil =>
    have whole := others (fuelFor text) (by rw [fuelFor]; omega)
    obtain ⟨c, rest, rfl, listed⟩ := begins
    rw [printParameters, bracketed, isEmpty_nil, if_pos rfl, nil_append, map]
    · exact whole
    · rintro more ⟨⟩
      exact unopened listed
  | cons parameter parameters =>
    have taken := takes_parameters answers (parameter :: parameters)
    simp only [printParameters, bracketed, isEmpty_cons, map_cons, Bool.false_eq_true, if_false] at taken ⊢
    generalize (parameter :: parameters).flatMap (TypeParameter.print Identifier.chars) = inside at taken ⊢
    generalize (parameter.renamed newName :: parameters.map (TypeParameter.renamed newName)).flatMap
      (TypeParameter.print id) = written at taken ⊢
    have first := taken (fuelFor (inside ++ '>' :: text)) text (by simp [fuelFor]; omega)
    have further := others (fuelFor (inside ++ '>' :: text)) (by simp [fuelFor]; omega)
    rw [append_assoc, singleton_append] at first
    simp [map, first, further]

theorem Tree.map (tree : Tree Identifier) :
    map renamer (tree.print Identifier.chars) = .ok ((tree.renamed newName).print id) := by
  cases tree with
  | ofClass parameters superclass interfaces =>
    have above := Maps.list (fun type => ClassType.maps answers type) interfaces maps_nil
    have whole := map_printParameters answers parameters (by decide)
      ((ReferenceType.begins Identifier.chars (.object superclass)).append _) (superclass.maps answers above)
    simpa [print, renamed, ReferenceType.print, flatMap_map] using whole
  | ofMethod parameters arguments result thrown =>
    have raised := Maps.list (fun type => ThrownType.maps answers type) thrown maps_nil
    have returned := (maps_result answers result raised).mark (c := ')') (by decide)
    have called := (Maps.list (fun type => JavaType.maps answers type) arguments returned).mark (c := '(') (by decide)
    have whole := map_printParameters answers parameters (by decide) (begins_self '(' _) called
    simpa [print, renamed, flatMap_map] using whole
  | ofField type =>
    have whole := map_printParameters answers [] (by decide) ((type.begins _).append _) (type.maps answers maps_nil)
    simpa [print, renamed, printParameters, bracketed] using whole

end trees

end pieces

/-- Renamers that always answer accept the same signatures, whatever they answer. -/
theorem NamesClasses.mapSignature_alike {other : Renamer} {otherName : List Char → List Char}
    (answers : NamesClasses renamer newName) (others : NamesClasses other otherName) (signature : String) :
    (renamer.mapSignature signature).map (fun _ => ()) = (other.mapSignature signature).map fun _ => () := by
  have composes : Composes fun _ _ _ => True := ⟨fun _ => trivial, fun _ _ => trivial, fun _ _ => trivial⟩
  have related : Outcome.Relates False _ (renamer.mapSignature signature) (other.mapSignature signature) :=
    mapSignature_related composes (fun name => by rw [answers, others]; exact .ok trivial) signature
  generalize renamer.mapSignature signature = mapped, other.mapSignature signature = remapped at related
  cases related with
  | ok | failed => rfl
  | stopped impossible => exact impossible.elim

theorem namesClasses_keep : NamesClasses Renamer.keep id := fun _ => rfl

theorem keep_steady : Renamer.keep.Steady where
  className _ _ answered := by cases answered
  fieldName _ _ _ _ answered := by cases answered
  methodName _ _ _ _ answered := by cases answered
  elementName _ _ _ answered := by cases answered

def sampleClassNames : List (String × String) :=
  [("a", "com/example/A"), ("a$b", "com/example/A$Inner"), ("c", "com/example/Other"), ("L", "com/example/L")]

def sampleClassRenamer : Renamer := { Renamer.keep with className? := fun name => .ok (sampleClassNames.lookup name) }

def sampleNewName (name : List Char) : List Char :=
  ((sampleClassNames.lookup (String.ofList name)).getD (String.ofList name)).toList

theorem namesClasses_sample : NamesClasses sampleClassRenamer sampleNewName := by
  intro name
  rw [sampleNewName, String.ofList_toList]
  rfl

def letter (c : Char) (plain : c ∉ reserved) : Identifier := ⟨[c], cons_ne_nil _ _, by simpa using plain⟩

/-- A method of one type parameter. It returns an array of a type variable that is called like a class. -/
def sampleTree : Tree Identifier :=
  let object : ClassType Identifier := .mk ⟨"java/lang/Object".toList, by simp, by simp [reserved]⟩ [] []
  let parameter : ReferenceType Identifier := .typeVariable (letter 'T' (by decide))
  .ofMethod [⟨letter 'T' (by decide), some (.object object), [], by decide⟩]
    [.reference parameter, .reference (.object (.mk (letter 'a' (by decide)) [.wildcard]
      [(letter 'b' (by decide), [.exact parameter])]))]
    (some (.reference (.array (.reference (.typeVariable (letter 'L' (by decide)))))))
    [.object (.mk (letter 'c' (by decide)) [] [])]

/-- A signature is mapped like its tree. Where no class is renamed it is copied, and which signatures are accepted
does not depend on the renamer. -/
theorem mapSignature_renames_tree (renamer : Renamer) (newName : List Char → List Char)
    (answers : NamesClasses renamer newName) :
    (∀ tree : Tree Identifier, renamer.mapSignature (String.ofList (tree.print Identifier.chars)) =
      .ok (String.ofList ((tree.renamed newName).print id))) ∧
    (∀ signature new, Renamer.keep.mapSignature signature = .ok new → new = signature) ∧
    ∀ signature, (renamer.mapSignature signature).map (fun _ => ()) =
      (Renamer.keep.mapSignature signature).map fun _ => () := by
  refine ⟨fun tree => ?_, fun _ _ mapped => keep_steady.mapSignature mapped,
    answers.mapSignature_alike namesClasses_keep⟩
  rw [Renamer.mapSignature, String.toList_ofList, tree.map answers]
  rfl

theorem mapSignature_sampleTree :
    NamesClasses sampleClassRenamer sampleNewName ∧
    sampleTree.print Identifier.chars = "<T:Ljava/lang/Object;>(TT;La<*>.b<TT;>;)[TL;^Lc;".toList ∧
    (sampleTree.renamed sampleNewName).print id =
      "<T:Ljava/lang/Object;>(TT;Lcom/example/A<*>.Inner<TT;>;)[TL;^Lcom/example/Other;".toList ∧
    sampleClassRenamer.mapSignature (String.ofList (sampleTree.print Identifier.chars)) =
      .ok (String.ofList ((sampleTree.renamed sampleNewName).print id)) :=
  ⟨namesClasses_sample, by decide +kernel, by decide +kernel,
    (mapSignature_renames_tree _ _ namesClasses_sample).1 sampleTree⟩

end JarRemap.Signature

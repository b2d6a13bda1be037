import JarRemap.Access.WidenerFile
import JarRemap.Files.Session
import JarRemap.Mapping.Tree

/-!
# Sets of access transforms

A set holds one transform for each class, method and field that it knows. Merging makes an entry for the
symbol before it looks at the transforms, and an entry for a member brings one for its class along, which
may change nothing. Entries that change nothing are not written.
-/
namespace JarRemap

open FileM

structure ClassTransforms where
  access : AccessTransform
  methods : OrderedMap MemberKey AccessTransform
  fields : OrderedMap String AccessTransform

namespace ClassTransforms

def idle : ClassTransforms := ⟨.idle, ∅, ∅⟩

/-- Whether two classes get the same transforms, in any order. -/
def same (left right : ClassTransforms) : Bool :=
  left.access == right.access && left.methods.sameEntries (· == ·) right.methods &&
    left.fields.sameEntries (· == ·) right.fields

end ClassTransforms

structure TransformSet where
  classes : OrderedMap String ClassTransforms

namespace TransformSet

def empty : TransformSet := ⟨∅⟩

/-- Whether two sets hold the same transforms, in any order. Entries that change nothing count. -/
def same (left right : TransformSet) : Bool :=
  left.classes.sameEntries ClassTransforms.same right.classes

def class? (set : TransformSet) (name : String) : Option ClassTransforms := set.classes.get? name

def find? (set : TransformSet) : AccessTarget → Option AccessTransform
  | .ofClass owner => (set.class? owner).map ClassTransforms.access
  | .ofMethod owner name descriptor => do
    (← set.class? owner).methods.get? ⟨name, descriptor⟩
  | .ofField owner name => do
    (← set.class? owner).fields.get? name

def put (set : TransformSet) (target : AccessTarget) (transform : AccessTransform) : TransformSet :=
  ⟨set.classes.update target.owner .idle fun transforms =>
    match target with
    | .ofClass _ => { transforms with access := transform }
    | .ofMethod _ name descriptor =>
      { transforms with methods := transforms.methods.insert ⟨name, descriptor⟩ transform }
    | .ofField _ name => { transforms with fields := transforms.fields.insert name transform }⟩

/-- Changes of a set that may fail and keep what they did before. -/
abbrev EditM := ExceptT Failure (StateM TransformSet)

def mergeTarget (target : AccessTarget) (transform : AccessTransform) : EditM Unit := do
  let current := ((← get).find? target).getD .idle
  modify (·.put target current)
  match current.merge transform with
  | .ok merged => modify (·.put target merged)
  | .error failure => throw (failure.within target.context)

def widen (widening : Widening) : EditM Unit := mergeTarget widening.target widening.transform

/-- All entries in order of insertion: class by class, its methods before its fields. -/
def allLines (set : TransformSet) : List TransformerLine :=
  set.classes.entries.flatMap fun (owner, transforms) =>
    ⟨.ofClass owner, transforms.access⟩ ::
      (transforms.methods.entries.map fun (key, transform) =>
        ⟨.ofMethod owner key.name key.descriptor, transform⟩) ++
      transforms.fields.entries.map fun (name, transform) => ⟨.ofField owner name, transform⟩

def merge (other : TransformSet) : EditM Unit :=
  other.allLines.forM fun line => mergeTarget line.target line.transform

/-- The entries that change something, sorted by the text of their symbols. -/
def lines (set : TransformSet) : List TransformerLine :=
  (set.allLines.filter fun line => !line.transform.isIdle).mergeSort
    fun left right => left.target.text ≤ right.target.text

def text (set : TransformSet) : String :=
  String.join (set.lines.map fun line => line.text ++ "\n")

def build (edit : EditM Unit) : Outcome TransformSet :=
  match edit.run empty with
  | (.ok (), set) => .ok set
  | (.error failure, _) => .error failure

def compile (widenings : List Widening) : Outcome TransformSet := build (widenings.forM widen)

/-- The transforms that the widenings of a file ask for, up to the first refused line. -/
def compileFile (file : WidenerFile) : Outcome TransformSet :=
  build (file.widenings.forM fun widening => do widen (← widening))

/-- Merges the line with the given number of an access transformer file. -/
def readLine (number : Nat) (bytes : Bytes) : EditM Unit := do
  let text ← Text.ofStream bytes
  match ← Outcome.within (.inLine number) (TransformerLine.ofText text) with
  | none => return
  | some line =>
    tryCatch (mergeTarget line.target line.transform) fun failure =>
      throw (failure.within (.inLine number))

/-- Reads an access transformer file. Lines for the same symbol are merged. -/
def read (bytes : Bytes) : Outcome TransformSet :=
  build ((Text.byteLines bytes).zipIdx.forM fun (line, index) => readLine (index + 1) line)

/-- The transforms that the access widener at a path asks for. -/
def ofWidenerFile (path : String) : FileM TransformSet := do
  let file ← within (.openWidener path) (openPath path)
  let widener ← within (.readWidener path) do
    let content ← content file
    WidenerFile.read content.data
  within (.convertWidener path) (compileFile widener)

end TransformSet

end JarRemap

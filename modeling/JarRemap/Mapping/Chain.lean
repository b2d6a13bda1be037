import JarRemap.Mapping.Table

/-!
# Chains of namespaces

A chain leads through several namespaces, with one table from each to the next. Tables between
namespaces that are not next to each other are composed along the chain, and inverted ones on the way back.
-/
namespace JarRemap

open MappingTable Outcome

/-- A row of tables, each starting where the one before ends. -/
structure NamespaceChain where
  first : String
  hops : List MappingTable

namespace NamespaceChain

def namespaces (chain : NamespaceChain) : List String :=
  chain.first :: chain.hops.map target

def targets (chain : NamespaceChain) : List String := chain.hops.map target

def last (chain : NamespaceChain) : String := chain.namespaces.getLastD chain.first

/-- The namespace before the last one, in a list of at least three. -/
def beforeLast? (namespaces : List String) : Option String :=
  match namespaces.reverse with
  | _ :: before :: _ :: _ => some before
  | _ => none

/-- The namespace before the last one, if there are at least three. -/
def penultimate? (chain : NamespaceChain) : Option String := beforeLast? chain.namespaces

/-- Checks that each table starts where the one before ends and leads to a new namespace. `visited` holds
the namespaces so far, in order. -/
def checkHops : (visited : List String) → List MappingTable → Outcome Unit
  | _, [] => .ok ()
  | visited, hop :: rest =>
    if visited.getLast? ≠ some hop.source then
      fail (.brokenChain hop.source hop.target visited)
    else if visited.contains hop.target then fail (.repeatedNamespace hop.target)
    else checkHops (visited ++ [hop.target]) rest

def ofHops (hops : List MappingTable) : Outcome NamespaceChain :=
  match hops with
  | [] => fail .emptyChain
  | hop :: _ => do
    checkHops [hop.source] hops
    return { first := hop.source, hops }

/-- The tables of a mapping tree between each namespace and the next. -/
def hopsOf (tree : MappingTree) : List String → Outcome (List MappingTable)
  | source :: target :: rest => do
    let hop ← within (.buildTable source target) (ofTree tree source target)
    let hops ← hopsOf tree (target :: rest)
    return hop :: hops
  | _ => .ok []

def ofTree (tree : MappingTree) (namespaces : List String) : Outcome NamespaceChain := do
  tree.checkNamespaces namespaces
  let hops ← hopsOf tree namespaces
  ofHops hops

def position (chain : NamespaceChain) (name : String) : Outcome Nat :=
  match chain.namespaces.idxOf? name with
  | some index => .ok index
  | none => fail (.namespaceNotInChain name chain.namespaces)

/-- The tables on the way from one position to another. -/
def path (chain : NamespaceChain) (start finish : Nat) : Outcome (List MappingTable) :=
  if start ≤ finish then .ok ((chain.hops.take finish).drop start)
  else ((chain.hops.take start).drop finish).reverse.mapM invert

def resolve (chain : NamespaceChain) (source target : String) : Outcome MappingTable := do
  let start ← chain.position source
  let finish ← chain.position target
  match ← chain.path start finish with
  | [] => return .empty source target
  | table :: rest =>
    within (.resolveTable source target) (rest.foldlM compose table)

end NamespaceChain

end JarRemap

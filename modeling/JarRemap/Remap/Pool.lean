import JarRemap.Remap.Scope

/-!
# Remapping the constant pool

Classes, references to members, method types and call sites keep their slots and get new names. The other
constants stay as they are: texts and pairs of name and descriptor may be shared, so new ones are added
where a name changes.
-/
namespace JarRemap.RemapScope

open Outcome Text

def lambdaFactory : String := "java/lang/invoke/LambdaMetafactory"

/-- The pair of a reference to a member, renamed by `map`. Members of arrays and names that start with
an angle bracket, as those of constructors do, are kept. -/
def mapReference (scope : RemapScope) (map : (owner name descriptor : String) → Outcome String)
    (ownerIndex pairIndex : UInt16) : PoolM UInt16 := do
  let owner ← scope.old.className ownerIndex
  let (name, descriptor) ← scope.old.nameAndType pairIndex
  let newName ←
    if startsWith '[' owner || startsWith '<' name then pure name
    else PoolM.ofOutcome (within (.reference owner name descriptor) (map owner name descriptor))
  let newDescriptor ← scope.renamer.mapDescriptor descriptor
  scope.keepNameAndType pairIndex newName newDescriptor

/-- The pair of a computed constant. Its name goes to the bootstrap method as it is. -/
def mapDynamic (scope : RemapScope) (pairIndex : UInt16) : PoolM UInt16 := do
  let (name, descriptor) ← scope.old.nameAndType pairIndex
  let newDescriptor ← scope.renamer.mapDescriptor descriptor
  scope.keepNameAndType pairIndex name newDescriptor

/-- The method that a bootstrap method's handle refers to, with its owner; `none` if the handle refers
to something else. -/
def handleTarget? (scope : RemapScope) (index : UInt16) (bootstrap : BootstrapMethod) :
    Outcome (Option (UInt16 × UInt16)) := do
  match ← scope.old.get bootstrap.handle with
  | .methodHandle _ reference =>
    match ← scope.old.get reference with
    | .methodRef owner pair | .interfaceMethodRef owner pair => return some (owner, pair)
    | _ => return none
  | _ => fail (.bootstrapNotHandle index)

/-- Whether a reference leads to a method that creates lambdas. -/
def isLambdaFactory (scope : RemapScope) (ownerIndex pairIndex : UInt16) : Outcome Bool := do
  let (name, _) ← scope.old.nameAndType pairIndex
  let owner ← scope.old.className ownerIndex
  return owner = lambdaFactory && (name = "metafactory" || name = "altMetafactory")

/-- The descriptor of the interface method that a call site implements, if its bootstrap method creates
lambdas. -/
def lambdaDescriptor? (scope : RemapScope) (index : UInt16) : Outcome (Option String) := do
  match scope.bootstraps[index.toNat]? with
  | none => fail (.missingBootstrap index)
  | some bootstrap =>
    match ← scope.handleTarget? index bootstrap with
    | none => return none
    | some (owner, pair) =>
      if !(← scope.isLambdaFactory owner pair) then return none
      else
        match bootstrap.arguments with
        | [] => fail (.bootstrapWithoutArguments index)
        | implemented :: _ =>
          match ← scope.old.get implemented with
          | .methodType descriptor => some <$> scope.old.text descriptor
          | _ => fail (.bootstrapNotMethodType index)

/-- The class that a method descriptor returns, if it returns an object that is no array. -/
def returnedClass? (descriptor : String) : Option String := do
  let (_, result) ← cutLast? ')' descriptor.toList
  let name ← dropStart? ['L'] result
  let name ← dropEnd? [';'] name
  return String.ofList name

/-- The pair of a call site. For lambdas the name is that of the interface method, which belongs to the
class that the call site returns. -/
def mapCallSite (scope : RemapScope) (index pairIndex : UInt16) : PoolM UInt16 := do
  let (name, descriptor) ← scope.old.nameAndType pairIndex
  let newName ← match ← (scope.lambdaDescriptor? index : PoolM (Option String)) with
    | none => pure name
    | some implemented =>
      match returnedClass? descriptor with
      | none => PoolM.fail (.callSiteWithoutObject name descriptor)
      | some interface => PoolM.ofOutcome (within (.callSite name descriptor)
          (scope.renamer.mapMethod interface name implemented))
  let newDescriptor ← scope.renamer.mapDescriptor descriptor
  scope.keepNameAndType pairIndex newName newDescriptor

/-- The constant that takes the place of a constant, or nothing if it stays. -/
def mapConstant (scope : RemapScope) : Constant → PoolM (Option Constant)
  | .classRef name => do
    let mapped ← scope.renamer.mapClassOrArray (← scope.old.text name)
    return some (.classRef (← scope.keepText name mapped))
  | .fieldRef owner pair => do
    return some (.fieldRef owner (← scope.mapReference scope.renamer.mapField owner pair))
  | .methodRef owner pair => do
    return some (.methodRef owner (← scope.mapReference scope.renamer.mapMethod owner pair))
  | .interfaceMethodRef owner pair => do
    return some (.interfaceMethodRef owner (← scope.mapReference scope.renamer.mapMethod owner pair))
  | .methodType descriptor => do
    return some (.methodType (← scope.mapDescriptorAt descriptor))
  | .invokeDynamic bootstrap pair => do
    return some (.invokeDynamic bootstrap (← scope.mapCallSite bootstrap pair))
  | .dynamic bootstrap pair => do
    return some (.dynamic bootstrap (← scope.mapDynamic pair))
  | _ => return none

def mapPool (scope : RemapScope) : PoolM Unit :=
  scope.old.constants.forM fun (index, constant) => do
    match ← scope.mapConstant constant with
    | none => return
    | some new => PoolM.within (.replacing index) (ConstantPool.replace index new)

end JarRemap.RemapScope

import JarRemap.Access.Modifier
import JarRemap.ClassFile.Constant
import JarRemap.Job.Toolchain
import JarRemap.Mapping.Line
import JarRemap.Text.Utf8

/-!
# Failures

A failure has one cause and any number of circumstances around it, outermost first. Causes and
circumstances are kept as data, so that a statement can say which failure arises; their wording is a
matter of `JarRemap.Failure.Message`.
-/
namespace JarRemap

/-- What the operating system answers when a file operation is refused. -/
inductive FileFault where
  | notFound
  | isDirectory
  | notDirectory
  | alreadyExists
  | nameTooLong
  | busy
  /-- A path holds the null character. -/
  | nullInPath
deriving DecidableEq

/-- The inputs that a job needs before it starts. -/
inductive InputKind where
  | mappingFile
  | inputArchive
  | classpathEntry
deriving DecidableEq

/-- Why an access widener is refused. -/
inductive WidenerFault where
  /-- There is no line at all. -/
  | missingHeader
  /-- The header has another number of words than three. -/
  | headerFieldCount (fields : List String)
  /-- The header starts with another word than the marker. -/
  | notAWidener (marker : String)
  /-- The version is not the supported one. -/
  | unsupportedVersion (version : String)
  /-- The second word of a line is no kind of symbol. -/
  | unknownEntryType (entryType : String)
  /-- A line for this kind of symbol has the wrong number of words. -/
  | fieldCount (kind : SymbolKind) (expected got : Nat)
  /-- The first word of a line is no access for this kind of symbol. -/
  | unknownAccess (kind : SymbolKind) (access : String)
deriving DecidableEq

/-- Why a generic signature is refused. -/
inductive SignatureFault where
  | endOfText
  | endInIdentifier (identifier : String)
  | badStart (got : Char)
  | badClassPart (got : Char)
  | endInArguments
deriving DecidableEq

/-- What went wrong, without the circumstances. -/
inductive Cause where
  /-- A number of `needed` bytes is cut short. -/
  | endOfData (needed : Nat)
  /-- A block of `needed` bytes is cut short after `got`. -/
  | shortData (needed got : Nat)
  /-- A length does not fit the `bits` that are there for it. -/
  | lengthTooLarge (length bits : Nat)
  /-- Bytes are not UTF-8 at a known place. -/
  | invalidUtf8 (fault : Text.Utf8Fault)
  /-- A line or a file is not UTF-8. -/
  | streamNotUtf8
  /-- A text constant has a surrogate without its partner. -/
  | unpairedSurrogates (bytes : Bytes)
  | unknownTag (tag : UInt8)
  | wideOverflow (count : UInt16)
  /-- A counter of sixteen bits would run over. -/
  | counterOverflow
  | noConstant (index : UInt16) (count : Nat)
  | indexOutOfBounds (index : UInt16)
  | emptySlot (index : UInt16)
  | slotMismatch (old new : Constant)
  | poolFull
  | poolFullFor (constant : Constant)
  | notText (index : UInt16) (constant : Constant)
  | notClass (index : UInt16) (constant : Constant)
  | notNameAndType (index : UInt16) (constant : Constant)
  | badMagic (magic : UInt32)
  | classTrailingBytes (count : Nat)
  | attributeTrailingBytes (count : Nat)
  | unknownElementTag (tag : UInt8)
  | missingBootstrap (index : UInt16)
  | bootstrapNotHandle (index : UInt16)
  | bootstrapWithoutArguments (index : UInt16)
  | bootstrapNotMethodType (index : UInt16)
  | callSiteWithoutObject (name descriptor : String)
  | missingSemicolon (descriptor : String)
  | signature (fault : SignatureFault)
  /-- Nesting goes deeper than the bound that was computed for it. -/
  | nestingTooDeep
  | missingField (line : Line)
  | nameCount (line : Nat) (fields : List String) (namespaces : Nat)
  | unexpectedDepth (depth : Nat) (line : Line)
  | noHeaderLine
  | badHeader (line : Line)
  | unknownTopLevel (entry : String)
  | unknownEscape (escape : Option Char) (name : String)
  | emptyFirstName
  /-- A symbol has `count` names, none of them for the namespace at `index`. -/
  | noNameAt (index count : Nat)
  | tooFewNamespaces (namespaces : List String)
  | duplicateNamespace (name : String) (namespaces : List String)
  | unknownNamespace (name : String) (namespaces : List String)
  | wrongNameCount (expected : Nat) (names : List String)
  | duplicateClass (names existing : List String)
  | duplicateMember (kind : SymbolKind) (names : List String) (descriptor : String)
      (existing : List String)
  | cannotCompose (source middle start target : String)
  | conflictingClass (name existing new : String)
  | conflictingMember (kind : SymbolKind) (owner name descriptor existing new : String)
  | emptyChain
  | brokenChain (source target : String) (namespaces : List String)
  | repeatedNamespace (name : String)
  | namespaceNotInChain (name : String) (namespaces : List String)
  | widener (fault : WidenerFault)
  | conflictingChanges (first second : FinalChange)
  | transformFieldCount (fields : List String)
  | unknownModifier (modifier : String)
  | idleModifier (modifier : String)
  | file (fault : FileFault)
  /-- A file is no archive. -/
  | notAnArchive
  /-- A text is not the JSON that is expected. -/
  | badJson
  | duplicateEntry (path : String)
  | missingClasspathEntry (path : String)
  | missingInput (kind : InputKind) (path : String)
  | wrongToolchain (job profile : Toolchain)
  | engineFinished
  | chainTooShortForFixups
  | noTargets
  | outputNotCreated (role : String)
  /-- A caller's own reason. -/
  | other (message : String)
deriving DecidableEq

/-- What was being done when something went wrong. -/
inductive Context where
  | modifiedUtf8 (bytes : Bytes)
  | poolEntry (number : UInt16)
  | nameOfClassEntry (index : UInt16)
  | readFields
  | readMethods
  | readClassAttributes
  /-- The name is given as messages show it, whether or not it could be read. -/
  | innerClassesOf (shownName : String)
  | bootstrapMethods
  | poolOf (owner : String)
  | fieldOf (owner : String)
  | methodOf (owner : String)
  | attributesOf (owner : String)
  | replacing (index : UInt16)
  | reference (owner name descriptor : String)
  | callSite (name descriptor : String)
  | attributesOfField (name descriptor : String)
  | attributesOfMethod (name descriptor : String)
  | attribute (name : String)
  | mapDescriptor (text : String)
  | mapSignature (text : String)
  | inLine (number : Nat)
  | headerProperties
  | classSections
  | mappingLines
  | openMappings (path : String)
  | readMappings (path : String)
  | buildTable (source target : String)
  | resolveTable (source target : String)
  | openWidener (path : String)
  | readWidener (path : String)
  | convertWidener (path : String)
  | forClass (owner : String)
  | forMethod (owner name descriptor : String)
  | forField (owner name : String)
  | openArchive (path : String)
  | openAsArchive (path : String)
  | readArchive (path : String)
  | readClassEntries (path : String)
  | readEntry (path : String)
  | readEntryOf (path source : String)
  | readClass (path : String)
  | readClassOf (path source : String)
  | writeClass (path : String)
  | inClassFile (path : String)
  | indexEntry (path : String)
  | createDirectory (path : String)
  | writeArchive (path : String)
  | manifestNotUtf8 (path : String)
  | entryNotUtf8 (path : String)
  | editEntry (path : String)
  | parseEntry (path : String)
  | readJob (path : String)
  | parseJob (path : String)
  | deleteFile (path : String)
  | createFile (path : String)
  | mappingsFor (path : String) (toolchain : Toolchain)
  | loadArchive (role path : String)
  | remapTo (role target : String)
  | startWorkers
  | indexClasspath
  | secondaryMappings
  | packageAccess (role : String)
  | remapClass (path source target : String)
deriving DecidableEq

/-- A cause with the circumstances around it, outermost first. -/
structure Failure where
  contexts : List Context
  cause : Cause
deriving DecidableEq

namespace Failure

def of (cause : Cause) : Failure := ⟨[], cause⟩

def within (context : Context) (failure : Failure) : Failure :=
  { failure with contexts := context :: failure.contexts }

end Failure

abbrev Outcome := Except Failure

namespace Outcome

variable {α : Type}

def fail (cause : Cause) : Outcome α := .error (.of cause)

/-- Adds a circumstance to a failure; a result passes unchanged. -/
def within (context : Context) : Outcome α → Outcome α
  | .ok value => .ok value
  | .error failure => .error (failure.within context)

end Outcome

end JarRemap

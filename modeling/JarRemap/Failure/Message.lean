import JarRemap.Failure

/-!
# The wording of failures

A failure reads from the outermost circumstance to the cause, with a colon between any two. A few causes
consist of two sentences. `Failure.report` is the long form, with the causes below each other.
-/
namespace JarRemap

open Text (quoted quotedSingle quotedList bracketed)

namespace FileFault

/-- The operating system's words, with its number for the fault. -/
def message : FileFault → String
  | .notFound => "No such file or directory (os error 2)"
  | .isDirectory => "Is a directory (os error 21)"
  | .notDirectory => "Not a directory (os error 20)"
  | .alreadyExists => "File exists (os error 17)"
  | .nameTooLong => "File name too long (os error 36)"
  | .busy => "Device or resource busy (os error 16)"
  | .nullInPath => "file name contained an unexpected NUL byte"

end FileFault

namespace InputKind

def title : InputKind → String
  | .mappingFile => "mapping file"
  | .inputArchive => "input archive"
  | .classpathEntry => "classpath entry"

end InputKind

namespace WidenerFault

def message : WidenerFault → String
  | .missingHeader => "empty access widener, there's no header"
  | .headerFieldCount fields => s!"header does not have three fields, got {quotedList fields}"
  | .notAWidener marker => s!"not an access widener, header starts with {quoted marker}"
  | .unsupportedVersion version =>
    s!"unsupported access widener version {quoted version}, only v1 is supported"
  | .unknownEntryType entryType => s!"unknown entry type {quoted entryType}"
  | .fieldCount kind expected got =>
    s!"invalid length for {kind.keyword} entry: expected {expected} fields, got {got}"
  | .unknownAccess kind access => s!"unknown {kind.keyword} access {quoted access}"

end WidenerFault

namespace SignatureFault

def message : SignatureFault → String
  | .endOfText => "unexpected end of signature"
  | .endInIdentifier identifier => s!"unexpected end of signature in identifier {quoted identifier}"
  | .badStart got => s!"unexpected {quotedSingle got} at the start of a type signature"
  | .badClassPart got => s!"unexpected {quotedSingle got} in class type signature"
  | .endInArguments => "unexpected end of signature in type arguments"

end SignatureFault

def shownBytes (bytes : Bytes) : String := bracketed (bytes.map fun b => toString b.toNat)

def Text.Utf8Fault.message : Text.Utf8Fault → String
  | .invalid index length => s!"invalid utf-8 sequence of {length} bytes from index {index}"
  | .incomplete index => s!"incomplete utf-8 byte sequence from index {index}"

namespace Cause

def sentences : Cause → List String
  | .endOfData needed =>
    [s!"unexpected end of data, expected {needed} more bytes", "failed to fill whole buffer"]
  | .shortData needed got => [s!"unexpected end of data, expected {needed} bytes but got {got}"]
  | .lengthTooLarge length bits => [s!"length {length} doesn't fit into an u{bits}"]
  | .invalidUtf8 fault => [fault.message]
  | .streamNotUtf8 => ["stream did not contain valid UTF-8"]
  | .unpairedSurrogates bytes => [s!"java string contains unpaired surrogates: {shownBytes bytes}"]
  | .unknownTag tag => [s!"unknown constant pool tag {tag.toNat}"]
  | .wideOverflow count =>
    [s!"wide constant pool entry overflows the constant pool count of {count.toNat}"]
  | .counterOverflow => ["attempt to add with overflow"]
  | .noConstant index count =>
    [s!"constant pool index {index.toNat} is not a valid entry, pool count is {count}"]
  | .indexOutOfBounds index => [s!"constant pool index {index.toNat} out of bounds"]
  | .emptySlot index => [s!"constant pool index {index.toNat} is not a valid entry"]
  | .slotMismatch old new =>
    [s!"cannot replace {old.shown} with {new.shown}, they use a different amount of slots"]
  | .poolFull => ["constant pool is full"]
  | .poolFullFor constant => [s!"constant pool is full, cannot add {constant.shown}"]
  | .notText index constant => [s!"entry {index.toNat} isn't Utf8, we got: {constant.shown}"]
  | .notClass index constant => [s!"entry {index.toNat} isn't Class, we got: {constant.shown}"]
  | .notNameAndType index constant =>
    [s!"entry {index.toNat} isn't NameAndType, we got: {constant.shown}"]
  | .badMagic magic => [s!"invalid class file magic 0x{Text.hexDigits magic.toNat}"]
  | .classTrailingBytes count => [s!"class file has {count} trailing bytes"]
  | .attributeTrailingBytes count => [s!"attribute has {count} trailing bytes"]
  | .unknownElementTag tag => [s!"unknown element value tag {quotedSingle (Char.ofNat tag.toNat)}"]
  | .missingBootstrap index => [s!"invokedynamic refers to missing bootstrap method {index.toNat}"]
  | .bootstrapNotHandle index => [s!"bootstrap method {index.toNat} isn't a method handle"]
  | .bootstrapWithoutArguments index =>
    [s!"lambda bootstrap method {index.toNat} has no arguments"]
  | .bootstrapNotMethodType index =>
    [s!"first argument of lambda bootstrap method {index.toNat} isn't a method type"]
  | .callSiteWithoutObject name descriptor =>
    [s!"lambda call site {name}{descriptor} doesn't return an object"]
  | .missingSemicolon descriptor =>
    [s!"descriptor {quoted descriptor} has a missing semicolon somewhere"]
  | .signature fault => [fault.message]
  | .nestingTooDeep => ["nested too deeply"]
  | .missingField line => [s!"expected another field in line {line.number}: {line.shown}"]
  | .nameCount line fields namespaces =>
    [s!"line {line} contained {fields.length} names, but there are {namespaces} namespaces: " ++
      quotedList fields]
  | .unexpectedDepth depth line =>
    [s!"expected an indentation of {depth} for line {line.number}: {line.shown}"]
  | .noHeaderLine => ["no header line"]
  | .badHeader line => [s!"header version isn't tiny v2.0, in line {line.shown}"]
  | .unknownTopLevel entry => [s!"unknown top level entry {quoted entry}"]
  | .unknownEscape escape name =>
    let shownEscape := match escape with
      | some c => s!"Some({quotedSingle c})"
      | none => "None"
    [s!"unknown escape sequence {shownEscape} in {quoted name}"]
  | .emptyFirstName => ["name in the first namespace must not be empty"]
  | .noNameAt index count =>
    [s!"there is no name at position {index}, only {count} names are given"]
  | .tooFewNamespaces namespaces =>
    [s!"mappings need at least two namespaces, got {quotedList namespaces}"]
  | .duplicateNamespace name namespaces =>
    [s!"duplicate namespace {quoted name} in {quotedList namespaces}"]
  | .unknownNamespace name namespaces =>
    [s!"cannot find namespace {quoted name}, only got {quotedList namespaces}"]
  | .wrongNameCount expected names => [s!"expected {expected} names, got {quotedList names}"]
  | .duplicateClass names existing =>
    [s!"cannot add class {quotedList names}, there's already {quotedList existing}"]
  | .duplicateMember kind names descriptor existing =>
    [s!"cannot add {kind.keyword} {quotedList names} {quoted descriptor}, there's already " ++
      quotedList existing]
  | .cannotCompose source middle start target =>
    [s!"cannot compose mappings {source} -> {middle} with {start} -> {target}"]
  | .conflictingClass name existing new =>
    [s!"conflicting mappings for class {quoted name}: {quoted existing} and {quoted new}"]
  | .conflictingMember kind owner name descriptor existing new =>
    [s!"conflicting mappings for {kind.keyword} {owner}.{name}{descriptor}: " ++
      s!"{quoted existing} and {quoted new}"]
  | .emptyChain => ["a namespace chain needs at least one hop"]
  | .brokenChain source target namespaces =>
    [s!"mappings {source} -> {target} don't continue the chain {quotedList namespaces}"]
  | .repeatedNamespace name => [s!"namespace {quoted name} appears twice in the chain"]
  | .namespaceNotInChain name namespaces =>
    [s!"namespace {quoted name} isn't part of the chain {quotedList namespaces}"]
  | .widener fault => [fault.message]
  | .conflictingChanges first second =>
    [s!"cannot merge conflicting modifier changes {first.shown} and {second.shown}"]
  | .transformFieldCount fields => [s!"expected two or three fields, got {quotedList fields}"]
  | .unknownModifier modifier => [s!"unknown access modifier {quoted modifier}"]
  | .idleModifier modifier => [s!"access modifier {quoted modifier} doesn't change anything"]
  | .file fault => [fault.message]
  | .notAnArchive => ["invalid Zip archive"]
  | .badJson => ["invalid JSON"]
  | .duplicateEntry path => [s!"duplicate entry {quoted path}"]
  | .missingClasspathEntry path => [s!"classpath entry {quoted path} doesn't exist"]
  | .missingInput kind path =>
    [s!"the {kind.title} at {quoted path} doesn't exist, restore it before running again"]
  | .wrongToolchain job profile =>
    [s!"the job is for the {job.title} toolchain, but was run with the {profile.title} one"]
  | .engineFinished => ["the remap engine is already finished"]
  | .chainTooShortForFixups =>
    ["auxiliary file fixups need a chain of at least three namespaces"]
  | .noTargets => ["the namespace chain has no targets"]
  | .outputNotCreated role => [s!"the final output of {role} wasn't created"]
  | .other message => [message]

end Cause

namespace Context

def message : Context → String
  | .modifiedUtf8 bytes => s!"invalid java utf8 contents: {shownBytes bytes}"
  | .poolEntry number => s!"failed to read constant pool entry number {number.toNat}"
  | .nameOfClassEntry index => s!"failed to read name of class entry {index.toNat}"
  | .readFields => "failed to read fields"
  | .readMethods => "failed to read methods"
  | .readClassAttributes => "failed to read class attributes"
  | .innerClassesOf shownName => s!"failed to read InnerClasses attribute of {shownName}"
  | .bootstrapMethods => "failed to read BootstrapMethods attribute"
  | .poolOf owner => s!"failed to remap constant pool of {quoted owner}"
  | .fieldOf owner => s!"failed to remap field of {quoted owner}"
  | .methodOf owner => s!"failed to remap method of {quoted owner}"
  | .attributesOf owner => s!"failed to remap attributes of {quoted owner}"
  | .replacing index => s!"failed to replace constant pool entry {index.toNat}"
  | .reference owner name descriptor => s!"failed to remap reference to {owner}.{name}{descriptor}"
  | .callSite name descriptor => s!"failed to remap lambda call site {name}{descriptor}"
  | .attributesOfField name descriptor =>
    s!"failed to remap attributes of field {quoted name} {quoted descriptor}"
  | .attributesOfMethod name descriptor =>
    s!"failed to remap attributes of method {quoted name} {quoted descriptor}"
  | .attribute name => s!"failed to remap {name} attribute"
  | .mapDescriptor text => s!"failed to remap descriptor {quoted text}"
  | .mapSignature text => s!"failed to remap signature {quoted text}"
  | .inLine number => s!"in line {number}"
  | .headerProperties => "reading header properties"
  | .classSections => "reading class sub-sections"
  | .mappingLines => "reading lines"
  | .openMappings path => s!"failed to open mappings file {quoted path}"
  | .readMappings path => s!"failed to read mappings file {quoted path} as tiny v2 file"
  | .buildTable source target => s!"failed to build mappings {source} -> {target}"
  | .resolveTable source target => s!"failed to resolve mappings {source} -> {target}"
  | .openWidener path => s!"failed to open access widener {quoted path}"
  | .readWidener path => s!"failed to read access widener {quoted path}"
  | .convertWidener path => s!"failed to convert access widener {quoted path}"
  | .forClass owner => s!"for class {quoted owner}"
  | .forMethod owner name descriptor => s!"for method {owner}.{name}{descriptor}"
  | .forField owner name => s!"for field {owner}.{name}"
  | .openArchive path => s!"failed to open archive {quoted path}"
  | .openAsArchive path => s!"failed to open {quoted path} as zip archive"
  | .readArchive path => s!"failed to read archive {quoted path}"
  | .readClassEntries path => s!"failed to read class entries of {quoted path}"
  | .readEntry path => s!"failed to read entry {quoted path}"
  | .readEntryOf path source => s!"failed to read entry {quoted path} of {quoted source}"
  | .readClass path => s!"failed to read class {quoted path}"
  | .readClassOf path source => s!"failed to read class {quoted path} of {quoted source}"
  | .writeClass path => s!"failed to write class {quoted path}"
  | .inClassFile path => s!"in class file {quoted path}"
  | .indexEntry path => s!"failed to index classpath entry {quoted path}"
  | .createDirectory path => s!"failed to create directory {quoted path}"
  | .writeArchive path => s!"failed to write archive {quoted path}"
  | .manifestNotUtf8 path => s!"manifest {quoted path} isn't utf8"
  | .entryNotUtf8 path => s!"{quoted path} isn't utf8"
  | .editEntry path => s!"failed to rewrite entry {quoted path}"
  | .parseEntry path => s!"failed to parse {quoted path}"
  | .readJob path => s!"failed to read job file {quoted path}"
  | .parseJob path => s!"failed to parse job file {quoted path}"
  | .deleteFile path => s!"failed to delete {quoted path}"
  | .createFile path => s!"failed to create {quoted path}"
  | .mappingsFor path toolchain =>
    s!"mappings {quoted path} don't fit the {toolchain.title} toolchain"
  | .loadArchive role path => s!"failed to load {role} archive {quoted path}"
  | .remapTo role target => s!"failed to remap {role} to {target}"
  | .startWorkers => "failed to create worker pool"
  | .indexClasspath => "failed to index the classpath"
  | .secondaryMappings => "secondary mappings conflict with the mappings"
  | .packageAccess role => s!"failed to fix package access in {role}"
  | .remapClass path source target =>
    s!"failed to remap class {quoted path} from {source} to {target}"

end Context

namespace Failure

def sentences (failure : Failure) : List String :=
  failure.contexts.map Context.message ++ failure.cause.sentences

def message (failure : Failure) : String := ": ".intercalate failure.sentences

def circumstances (failure : Failure) : String :=
  ": ".intercalate (failure.contexts.map Context.message)

/-- A sentence below another one: its first line follows `lead`, its later lines are indented by as
much. -/
def indented (lead sentence : String) : String :=
  let margin := String.ofList (lead.toList.map fun _ => ' ')
  String.ofList (lead.toList ++ sentence.toList.flatMap fun c =>
    if c = '\n' then '\n' :: margin.toList else [c])

/-- The failure on several lines: the outermost sentence, then the others below it, numbered if there
are at least two of them. -/
def report (failure : Failure) : String :=
  match failure.sentences with
  | [] => ""
  | [only] => only
  | [outer, inner] => outer ++ "\n\nCaused by:\n" ++ indented "    " inner
  | outer :: inner =>
    outer ++ "\n\nCaused by:" ++ String.join (inner.zipIdx.map fun (sentence, number) =>
      let digits := toString number
      let lead := String.ofList (List.replicate (5 - digits.length) ' ') ++ digits ++ ": "
      "\n" ++ indented lead sentence)

end Failure

end JarRemap

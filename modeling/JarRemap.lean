import JarRemap.Main
import JarRemap.Proofs.ConstructorNames
import JarRemap.Proofs.HopComposition
import JarRemap.Proofs.LinkedMembers
import JarRemap.Proofs.SeparateOutputs
import JarRemap.Proofs.AnnotationTrees
import JarRemap.Proofs.FirstEntries
import JarRemap.Proofs.FollowedOwners
import JarRemap.Proofs.SignatureTrees
import JarRemap.Proofs.SurplusBytes
import JarRemap.Proofs.TableInversion
import JarRemap.Proofs.CoveredOwners
import JarRemap.Proofs.KeptTexts
import JarRemap.Proofs.AcceptedFiles
import JarRemap.Proofs.TreeCalls
import JarRemap.Proofs.IdleLines
import JarRemap.Proofs.RereadTransforms
import JarRemap.Proofs.CompiledWideners
import JarRemap.Proofs.FixupTables
import JarRemap.Proofs.PackageUses
import JarRemap.Proofs.WidenedAccess
import JarRemap.Proofs.AtomicWrites
import JarRemap.Proofs.CopiedEntries
import JarRemap.Proofs.LoadSchedules
import JarRemap.Proofs.VisibilityOnly
import JarRemap.Proofs.InnerNames
import JarRemap.Proofs.ScriptLiterals
import JarRemap.Proofs.RenamedTransformers

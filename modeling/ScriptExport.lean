import ScriptExport.Main
import ScriptExport.Proofs.Analysis.AnnotatedMethods
import ScriptExport.Proofs.Analysis.BaseNames
import ScriptExport.Proofs.Analysis.BaseSearch
import ScriptExport.Proofs.Analysis.Coverage
import ScriptExport.Proofs.Analysis.EnumValues
import ScriptExport.Proofs.Analysis.FreshNames
import ScriptExport.Proofs.Analysis.GeneratedNames
import ScriptExport.Proofs.Analysis.Instantiations
import ScriptExport.Proofs.Analysis.KeptOverloads
import ScriptExport.Proofs.Analysis.OppositeAccessor
import ScriptExport.Proofs.Analysis.OverloadSets
import ScriptExport.Proofs.Analysis.Placement
import ScriptExport.Proofs.Analysis.Provenance
import ScriptExport.Proofs.Analysis.Structure
import ScriptExport.Proofs.Analysis.VisitedOnce
import ScriptExport.Proofs.Command.AllOrNothing
import ScriptExport.Proofs.Constant.Exactness
import ScriptExport.Proofs.Constant.Numerals
import ScriptExport.Proofs.Directive.RoundTrip
import ScriptExport.Proofs.Settings.Cells
import ScriptExport.Proofs.Settings.RoundTrip
import ScriptExport.Proofs.Text.NormalSpelling
import ScriptExport.Proofs.Trace.Lifetime

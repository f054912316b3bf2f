import JsxTemplate.Compile
import JsxTemplate.Proofs.Lowering.Arrangement
import JsxTemplate.Proofs.Lowering.DroppedChildren
import JsxTemplate.Proofs.Lowering.ErrorMode
import JsxTemplate.Proofs.Lowering.FirstMistake
import JsxTemplate.Proofs.Lowering.Roots
import JsxTemplate.Proofs.Lowering.Sharing
import JsxTemplate.Proofs.Emission.Compilation
import JsxTemplate.Proofs.Emission.Indentation
import JsxTemplate.Proofs.Emission.Listeners
import JsxTemplate.Proofs.Emission.Nested
import JsxTemplate.Proofs.Emission.SlotNames
import JsxTemplate.Proofs.Html.Folding
import JsxTemplate.Proofs.Loop.KeyOnly
import JsxTemplate.Proofs.Loop.Pieces
import JsxTemplate.Proofs.Script.Constancy
import JsxTemplate.Proofs.Script.Names
import JsxTemplate.Proofs.SourceMap.Names
import JsxTemplate.Proofs.Template.Whitespace

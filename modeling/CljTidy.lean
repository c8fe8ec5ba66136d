import CljTidy.Folder
import CljTidy.Main
import CljTidy.Reading.Cursor
import CljTidy.Settings
import CljTidy.Proofs.Format.Canonical
import CljTidy.Proofs.Format.Declaration
import CljTidy.Proofs.Format.Faithful
import CljTidy.Proofs.Item.Bare
import CljTidy.Proofs.Item.Pairing
import CljTidy.Proofs.Item.Parts
import CljTidy.Proofs.Item.Survivors
import CljTidy.Proofs.Journal
import CljTidy.Proofs.Layout.Buffer
import CljTidy.Proofs.Layout.CallLine
import CljTidy.Proofs.Layout.Comments
import CljTidy.Proofs.Layout.Dense
import CljTidy.Proofs.Layout.Fence
import CljTidy.Proofs.Layout.Hygiene
import CljTidy.Proofs.Layout.Slide
import CljTidy.Proofs.Layout.Start
import CljTidy.Proofs.Namespace.Idempotent
import CljTidy.Proofs.Namespace.Import
import CljTidy.Proofs.Reading.Balance
import CljTidy.Proofs.Reading.Descent
import CljTidy.Proofs.Reading.Progress
import CljTidy.Proofs.Reading.RoundTrip
import CljTidy.Proofs.Reading.Tree
import CljTidy.Proofs.Token.Apart
import CljTidy.Proofs.Token.Failure
import CljTidy.Proofs.Token.Number

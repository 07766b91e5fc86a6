import ElmCodec.Main
import ElmCodec.Proofs.CommandEffects
import ElmCodec.Proofs.FieldNames
import ElmCodec.Proofs.Homogeneity
import ElmCodec.Proofs.Inhabitants
import ElmCodec.Proofs.LiteralReading
import ElmCodec.Proofs.MemberOrder
import ElmCodec.Proofs.ModuleLayout
import ElmCodec.Proofs.NameSpellings
import ElmCodec.Proofs.PlainDocuments
import ElmCodec.Proofs.RecordDecoders
import ElmCodec.Proofs.Repetition
import ElmCodec.Proofs.RootLabels
import ElmCodec.Proofs.ScalarContents
import ElmCodec.Proofs.TextEntry
import ElmCodec.Proofs.Visitors

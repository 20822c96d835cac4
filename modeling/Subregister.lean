import Subregister.Main
import Subregister.Session
import Subregister.Stored
import Subregister.Proofs.Residue
import Subregister.Proofs.Numeral
import Subregister.Proofs.LiteralForms
import Subregister.Proofs.Trimming
import Subregister.Proofs.LiteralReading
import Subregister.Proofs.Rotation
import Subregister.Proofs.Evaluation
import Subregister.Proofs.Reference
import Subregister.Proofs.HighByte
import Subregister.Proofs.Transcript
import Subregister.Proofs.Replay
import Subregister.Proofs.Precedence
import Subregister.Proofs.Logging
import Subregister.Proofs.EntryPoints
import Subregister.Proofs.Denotation
import Subregister.Proofs.Configuration
import Subregister.Proofs.LaneFolds
import Subregister.Proofs.Diffusion
import Subregister.Proofs.Sessions
import Subregister.Proofs.Offsets
import Subregister.Proofs.LiteralOffsets
import Subregister.Proofs.Checked
import Subregister.Proofs.Turning
import Subregister.Proofs.Narrowing
import Subregister.Proofs.LaneClasses
import Subregister.Proofs.LiteralFaults
import Subregister.Proofs.SizeLetters
import Subregister.Proofs.ShiftSums
import Subregister.Proofs.HandRotation
import Subregister.Proofs.ByteInjection
import Subregister.Proofs.Identities
import Subregister.Proofs.Messages
import Subregister.Proofs.JsonLexemes
import Subregister.Proofs.JsonScanning
import Subregister.Proofs.JsonRecognition
import Subregister.Proofs.JsonTrees
import Subregister.Proofs.JsonWriting
import Subregister.Proofs.SavedConfigurations
import Subregister.Proofs.Unambiguity

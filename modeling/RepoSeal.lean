import RepoSeal.Age.File
import RepoSeal.Age.Flaw
import RepoSeal.Age.Header
import RepoSeal.Age.Scanner
import RepoSeal.Age.Wrapper
import RepoSeal.Bytes
import RepoSeal.Cipher.Aes
import RepoSeal.Cipher.ChaCha
import RepoSeal.Cipher.Counter
import RepoSeal.Command.Basic
import RepoSeal.Command.Failure
import RepoSeal.Command.Filters
import RepoSeal.Command.Invocation
import RepoSeal.Command.Keys
import RepoSeal.Command.Session
import RepoSeal.Command.Sharing
import RepoSeal.Command.Words
import RepoSeal.Config
import RepoSeal.Curve.X25519
import RepoSeal.Digest.Hmac
import RepoSeal.Digest.Sha1
import RepoSeal.Digest.Sha256
import RepoSeal.Envelope.Buffer
import RepoSeal.Envelope.Format
import RepoSeal.Envelope.Opening
import RepoSeal.Envelope.Sealing
import RepoSeal.Error
import RepoSeal.Fault
import RepoSeal.Identity.Search
import RepoSeal.Key.Disk
import RepoSeal.Key.Entry
import RepoSeal.Key.Field
import RepoSeal.Key.File
import RepoSeal.Key.Name
import RepoSeal.Key.Ring
import RepoSeal.Key.VersionMap
import RepoSeal.Log
import RepoSeal.Log.Filter
import RepoSeal.Log.Line
import RepoSeal.Main
import RepoSeal.Path
import RepoSeal.Plan
import RepoSeal.Proofs.AllKeys
import RepoSeal.Proofs.Buffer
import RepoSeal.Proofs.Calls
import RepoSeal.Proofs.Changes
import RepoSeal.Proofs.CipherCalls
import RepoSeal.Proofs.Configs
import RepoSeal.Proofs.Copies
import RepoSeal.Proofs.EnvelopeLaws
import RepoSeal.Proofs.FieldLists
import RepoSeal.Proofs.Filters
import RepoSeal.Proofs.FirstIdentity
import RepoSeal.Proofs.FirstVersions
import RepoSeal.Proofs.Grants
import RepoSeal.Proofs.Handouts
import RepoSeal.Proofs.Inputs
import RepoSeal.Proofs.Installing
import RepoSeal.Proofs.Keeping
import RepoSeal.Proofs.KeyCanonical
import RepoSeal.Proofs.KeyCuts
import RepoSeal.Proofs.KeyDisk
import RepoSeal.Proofs.KeyEntries
import RepoSeal.Proofs.KeyExtensions
import RepoSeal.Proofs.KeyFaults
import RepoSeal.Proofs.KeyFields
import RepoSeal.Proofs.KeyGrammar
import RepoSeal.Proofs.KeyInterruptions
import RepoSeal.Proofs.KeyMaterial
import RepoSeal.Proofs.KeyPlaces
import RepoSeal.Proofs.KeyRings
import RepoSeal.Proofs.KeyRotation
import RepoSeal.Proofs.KeyRuns
import RepoSeal.Proofs.KeySecrecy
import RepoSeal.Proofs.KeyVersions
import RepoSeal.Proofs.Keystream
import RepoSeal.Proofs.Listing
import RepoSeal.Proofs.Migration
import RepoSeal.Proofs.Opening
import RepoSeal.Proofs.Paths
import RepoSeal.Proofs.Plans
import RepoSeal.Proofs.ReadOrder
import RepoSeal.Proofs.Receiving
import RepoSeal.Proofs.Register
import RepoSeal.Proofs.RoundTrip
import RepoSeal.Proofs.Routes
import RepoSeal.Proofs.Rows
import RepoSeal.Proofs.Sealing
import RepoSeal.Proofs.SelfDelimiting
import RepoSeal.Proofs.Sites
import RepoSeal.Proofs.Streams
import RepoSeal.Proofs.TomlBounds
import RepoSeal.Proofs.TomlLines
import RepoSeal.Proofs.TomlTexts
import RepoSeal.Proofs.Trees
import RepoSeal.Proofs.Unwrapping
import RepoSeal.Proofs.WholeStreams
import RepoSeal.Sharing.Store
import RepoSeal.Sharing.Wrapper
import RepoSeal.Stream.Input
import RepoSeal.Stream.InputLemmas
import RepoSeal.Stream.Sink
import RepoSeal.Stream.Source
import RepoSeal.Text.Base64
import RepoSeal.Text.Bech32
import RepoSeal.Text.Bits
import RepoSeal.Text.Column
import RepoSeal.Text.Hidden
import RepoSeal.Text.Lines
import RepoSeal.Text.Quoted
import RepoSeal.Toml.Document
import RepoSeal.Toml.Scalar
import RepoSeal.Toml.Text
import RepoSeal.Toml.Value
import RepoSeal.Tree.Basic
import RepoSeal.Tree.Files

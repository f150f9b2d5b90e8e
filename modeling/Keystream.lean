import Keystream.Arc4.Text
import Keystream.Bytes
import Keystream.ChaCha.Rows
import Keystream.ChaCha.Text
import Keystream.Proofs.Arc4.Assembly
import Keystream.Proofs.Arc4.Back
import Keystream.Proofs.Arc4.Checked
import Keystream.Proofs.Arc4.Cursor
import Keystream.Proofs.Arc4.Cycle
import Keystream.Proofs.Arc4.Decode
import Keystream.Proofs.Arc4.Discard
import Keystream.Proofs.Arc4.KeyMaterial
import Keystream.Proofs.Arc4.KeyPass
import Keystream.Proofs.Arc4.OtherSize
import Keystream.Proofs.Arc4.Rotation
import Keystream.Proofs.Arc4.Run
import Keystream.Proofs.Arc4.Saved
import Keystream.Proofs.Arc4.ShortCycle
import Keystream.Proofs.ByteStream
import Keystream.Proofs.Bytes
import Keystream.Proofs.ChaCha.Alike
import Keystream.Proofs.ChaCha.Back
import Keystream.Proofs.ChaCha.Current
import Keystream.Proofs.ChaCha.Quartets
import Keystream.Proofs.ChaCha.Rows
import Keystream.Proofs.ChaCha.Run
import Keystream.Proofs.ChaCha.Saved
import Keystream.Proofs.Decoders
import Keystream.Proofs.Draw.First
import Keystream.Proofs.Draw.Uniform
import Keystream.Proofs.Reach
import Keystream.Proofs.Refusal
import Keystream.Proofs.Seed.Entropy
import Keystream.Proofs.Seed.Steps
import Keystream.Proofs.Shuffle.Exchange
import Keystream.Proofs.Shuffle.Run
import Keystream.Proofs.Shuffle.Uniform
import Keystream.Proofs.Sort.Cursors
import Keystream.Proofs.Sort.Draws
import Keystream.Proofs.Sort.Nesting
import Keystream.Proofs.Sort.Partition
import Keystream.Proofs.Sort.Settled
import Keystream.Proofs.Sort.Sorted
import Keystream.Proofs.SplitMix
import Keystream.Proofs.SplitMix.Jumps
import Keystream.Proofs.SplitMix.Period
import Keystream.Proofs.Swap
import Keystream.Proofs.Text.Decimal
import Keystream.Proofs.Text.Follows
import Keystream.Proofs.Text.Format
import Keystream.Proofs.Text.Plain
import Keystream.Proofs.Text.Positions
import Keystream.Proofs.Text.Tokens
import Keystream.Proofs.Word
import Keystream.Shuffle
import Keystream.Sort

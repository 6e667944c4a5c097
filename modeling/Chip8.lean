import Chip8.Emulator
import Chip8.Cpu.Text
import Chip8.Proofs.Block
import Chip8.Proofs.Kept
import Chip8.Proofs.Indifference
import Chip8.Proofs.Refit
import Chip8.Proofs.Restart
import Chip8.Proofs.Progress
import Chip8.Proofs.Run
import Chip8.Proofs.Speaker
import Chip8.Proofs.Surroundings
import Chip8.Proofs.Tick
import Chip8.Proofs.Halt
import Chip8.Proofs.Release
import Chip8.Proofs.KeyWait
import Chip8.Proofs.KeyEdge
import Chip8.Proofs.Isolation
import Chip8.Proofs.Subroutine
import Chip8.Proofs.Cap
import Chip8.Proofs.Pause
import Chip8.Proofs.Consistency
import Chip8.Proofs.KeyMoves
import Chip8.Proofs.Standstill
import Chip8.Proofs.Handover
import Chip8.Proofs.Painting
import Chip8.Proofs.Footprint
import Chip8.Proofs.Image
import Chip8.Proofs.Dialects
import Chip8.Proofs.Breakdown
import Chip8.Proofs.Draws
import Chip8.Proofs.Frames
import Chip8.Proofs.Range
import Chip8.Proofs.Countdowns
import Chip8.Proofs.Tone
import Chip8.Proofs.Trace
import Chip8.Proofs.Decoding
import Chip8.Proofs.Alignment
import Chip8.Proofs.Blit
import Chip8.Proofs.Arithmetic
import Chip8.Proofs.Transfer
import Chip8.Proofs.KeyHistory
import Chip8.Proofs.Legible
import Chip8.Proofs.Disassembly
import Chip8.Proofs.DebugView

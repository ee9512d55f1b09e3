import SimpleArm.CondField
import SimpleArm.Compare
import SimpleArm.MultiWord
import SimpleArm.ResultRegister
import SimpleArm.MemoryMap
import SimpleArm.Call
import SimpleArm.Fetch
import SimpleArm.Lib.Loop
import SimpleArm.MainLoop
import SimpleArm.FetchBranch
import SimpleArm.CarryArithmetic
import SimpleArm.Encoding
import SimpleArm.Reachable
import SimpleArm.OpSelection
import SimpleArm.CondExec
import SimpleArm.Lib.Shift
import SimpleArm.ShifterOperand
import SimpleArm.ExactArithmetic
import SimpleArm.BranchEncoding
import SimpleArm.MemoryBounds
import SimpleArm.AluFrame
import SimpleArm.OperandDecoding
import SimpleArm.FaultCauses
import SimpleArm.MainRuns
import SimpleArm.Lib.Reorder
import SimpleArm.MemoryWrites
import SimpleArm.StraightLine
import SimpleArm.DataFlow
import SimpleArm.Lib.Reach
import SimpleArm.ReachableStates
import SimpleArm.BranchRuns
import SimpleArm.MemoryReach
import SimpleArm.WordBits
import SimpleArm.WordEncoding
import SimpleArm.Halting
import SimpleArm.ComplementedOperand

import Dynarmic.Mcl.Bit
import Dynarmic.Lib.FirstMatch
import Dynarmic.Lib.Run
import Dynarmic.Lib.Memory
import Dynarmic.Lib.IntervalMap
import Dynarmic.Lib.Dyadic
import Dynarmic.Lib.Lanes
import Dynarmic.Lib.XorLinear
import Dynarmic.Common.U128
import Dynarmic.Common.Crypto.AES
import Dynarmic.Common.Crypto.CRC32
import Dynarmic.Common.FP.Info
import Dynarmic.Common.FP.Unpacked
import Dynarmic.Common.FP.RoundTrip
import Dynarmic.Common.FP.FPToFixed
import Dynarmic.Common.FP.Fused
import Dynarmic.Frontend.A32.LocationDescriptor
import Dynarmic.Frontend.A32.Translate
import Dynarmic.Frontend.Decoder
import Dynarmic.Backend.X64.A32JitState
import Dynarmic.Backend.X64.A32EmitCpsr
import Dynarmic.Backend.ReturnStackBuffer
import Dynarmic.Backend.BlockLinking
import Dynarmic.Backend.ExclusiveMonitor
import Dynarmic.Backend.BlockRangeInformation
import Dynarmic.IR.Opcode
import Dynarmic.IR.Microinstruction
import Dynarmic.IR.Semantics
import Dynarmic.IR.Opt.ConstantPropagation
import Dynarmic.IR.Opt.DeadCodeElimination
import Dynarmic.IR.Opt.IdentityRemoval
import Dynarmic.IR.Context
import Dynarmic.IR.Opt.A64GetSetElimination
import Dynarmic.IR.Opt.A32GetSetElimination
import Dynarmic.IR.Context.Run
import Dynarmic.IR.Opt.A32GetSetElimination.Flags
import Dynarmic.IR.Opt.A32GetSetElimination.Registers
import Dynarmic.IR.Opt.A32GetSetElimination.Sound
import Dynarmic.IR.Opt.Polyfill
import Dynarmic.IR.Opt.ConstantPropagation.Fold
import Dynarmic.IR.Opt.ConstantPropagation.Binary
import Dynarmic.IR.Opt.ConstantPropagation.Shift
import Dynarmic.IR.Opt.ConstantPropagation.Run

import Tinycc.IR.JumpChain
import Tinycc.Cfg.Frontiers
import Tinycc.Runtime.SoftDivSound
import Tinycc.Runtime.SoftCompare
import Tinycc.Runtime.Floor
import Tinycc.Runtime.BitBuiltins
import Tinycc.Frontend.ConstUdiv64Sound
import Tinycc.Obj.ElfSymMerge
import Tinycc.Obj.LdPattern
import Tinycc.Obj.YaffFind
import Tinycc.Obj.ProgramHeaders
import Tinycc.Obj.YaffRoundTrip
import Tinycc.Obj.GcSectionsSound
import Tinycc.Opt.ConstEvalAgree
import Tinycc.Opt.KnownBitsFlatSound
import Tinycc.Opt.FoldWide
import Tinycc.Opt.Strength
import Tinycc.Opt.VrpRangesSound
import Tinycc.Arm.PatchCall
import Tinycc.Arm.RangeVeneer
import Tinycc.Arm.VfpArgMoves
import Tinycc.Arm.AsmLoads
import Tinycc.Arm.ArgMoves
import Tinycc.Regalloc.PhiCoalesce
import Tinycc.Regalloc.SlotLayout
import Tinycc.Regalloc.SpillSlots
import Tinycc.Memory.HotArenaSound

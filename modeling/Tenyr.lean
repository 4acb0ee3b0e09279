import Tenyr.Asm.Emission
import Tenyr.Asm.Growth
import Tenyr.Asm.Immediates
import Tenyr.Asm.LineBuffer
import Tenyr.Asm.Placement
import Tenyr.Asm.Reassembly
import Tenyr.Asm.Resolution
import Tenyr.Asm.SetSymbols
import Tenyr.Asm.Soundness
import Tenyr.Asm.Strings
import Tenyr.Fmt.Cycle
import Tenyr.Fmt.ExplicitZeros
import Tenyr.Fmt.Loader
import Tenyr.Hw.Alu
import Tenyr.Hw.Refinement
import Tenyr.Jit.DriverRefinement
import Tenyr.Jit.Faults
import Tenyr.Link.Arithmetic
import Tenyr.Link.Layout
import Tenyr.Link.OtherField
import Tenyr.Link.Safety
import Tenyr.Plugin.Load
import Tenyr.Sim.Devices
import Tenyr.Sim.Ram
import Tenyr.Sim.SpiCard
import Tenyr.Sim.SpiTransfer
import Tenyr.Sim.Spisd
import Tenyr.Stdlib.Bsearch
import Tenyr.Stdlib.Division
import Tenyr.Stdlib.DoubleWord
import Tenyr.Stdlib.Imul
import Tenyr.Stdlib.Isqrt
import Tenyr.Stdlib.Qsort
import Tenyr.Stdlib.Strtol
import Tenyr.Web.Emtsearch

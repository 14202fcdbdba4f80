import CircuitLowering.Design.Module

/-!
# Designs

A design is a set of modules with pairwise distinct names, in the order in which they were added,
one of which may be named as the top.
-/

namespace CircuitLowering

/-- A set of modules. -/
structure Design where
  modules : Ordered Module := .empty
  /-- The name of the top module, if one is named. -/
  top : Option String := none

namespace Design

def module? (d : Design) (name : String) : Option Module := d.modules.get? name

def addModule (d : Design) (name : String) (m : Module) : Except EmitError Design :=
  if d.modules.contains name then .error (.duplicateModule name)
  else .ok { d with modules := d.modules.insert name m }

def modifyModule (d : Design) (name : String) (f : Module → Module) : Design :=
  { d with modules := d.modules.modify name f }

end Design

end CircuitLowering

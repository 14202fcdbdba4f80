import CircuitLowering.Main
import CircuitLowering.Proofs.Emission.Ends
import CircuitLowering.Proofs.Netlist.Wiring
import CircuitLowering.Proofs.Emission.Reading
import CircuitLowering.Proofs.Emission.Repairs
import CircuitLowering.Proofs.Netlist.Operations
import CircuitLowering.Proofs.Netlist.Naming
import CircuitLowering.Proofs.Emission.Reads
import CircuitLowering.Proofs.Emission.Assembly
import CircuitLowering.Proofs.Emission.Blackboxes
import CircuitLowering.Proofs.Emission.Writers
import CircuitLowering.Proofs.Emission.Aftermath
import CircuitLowering.Proofs.Circuit.Acceptance
import CircuitLowering.Proofs.Emission.Verdict
import CircuitLowering.Proofs.Blif.Cover
import CircuitLowering.Proofs.Emission.LookupTables
import CircuitLowering.Proofs.Ordered
import CircuitLowering.Proofs.Text.Subscript
import CircuitLowering.Proofs.Netlist.Ports
import CircuitLowering.Proofs.Design.CellBuses
import CircuitLowering.Proofs.Design.Instances
import CircuitLowering.Proofs.Design.Ports
import CircuitLowering.Proofs.Design.Buses
import CircuitLowering.Proofs.Design.Declarations
import CircuitLowering.Proofs.Design.Nets
import CircuitLowering.Proofs.Design.Labels
import CircuitLowering.Proofs.Design.Export
import CircuitLowering.Proofs.Bits
import CircuitLowering.Proofs.Design.Rtlil.Words
import CircuitLowering.Proofs.Design.Rtlil.Signals
import CircuitLowering.Proofs.Design.Rtlil.Lines
import CircuitLowering.Proofs.Design.Rtlil.Readable
import CircuitLowering.Proofs.Design.Rtlil.Designs
import CircuitLowering.Proofs.Emission.Settled
import CircuitLowering.Proofs.Emission.Regular
import CircuitLowering.Proofs.Emission.Agreement
import CircuitLowering.Proofs.Emission.Nodes
import CircuitLowering.Proofs.Emission.Returns
import CircuitLowering.Proofs.Emission.Circuits
import CircuitLowering.Proofs.Emission.Sessions
import CircuitLowering.Proofs.Emission.Independence
import CircuitLowering.Proofs.Circuit.Growth
import CircuitLowering.Proofs.Circuit.Nodes
import CircuitLowering.Proofs.Circuit.Boundary
import CircuitLowering.Proofs.Circuit.Connections
import CircuitLowering.Proofs.Circuit.Violations
import CircuitLowering.Proofs.Circuit.Interface
import CircuitLowering.Proofs.Circuit.Signals
import CircuitLowering.Proofs.Emission.Drivers
import CircuitLowering.Proofs.Emission.Signals
import CircuitLowering.Proofs.Emission.Reports
import CircuitLowering.Proofs.Design.Interface
import CircuitLowering.Proofs.Emission.Interfaces
import CircuitLowering.Proofs.Circuit.ConstantNames
import CircuitLowering.Emission.Sink
import CircuitLowering.Proofs.Emission.Ties
import CircuitLowering.Proofs.Emission.Residue
import CircuitLowering.Proofs.Emission.BlifFailures
import CircuitLowering.Proofs.Design.CellWidths
import CircuitLowering.Proofs.Circuit.PrimitiveNames
import CircuitLowering.Proofs.Emission.Completion
import CircuitLowering.Proofs.Emission.DesignFailures
import CircuitLowering.Proofs.Emission.Requests
import CircuitLowering.Proofs.Emission.ConstantDrivers
import CircuitLowering.Proofs.Circuit.Kinds
import CircuitLowering.Proofs.Emission.Formals
import CircuitLowering.Proofs.Circuit.Models
import CircuitLowering.Proofs.Catalog.MemorySizes
import CircuitLowering.Proofs.Emission.Declared
import CircuitLowering.Proofs.Text.Utf8
import CircuitLowering.Proofs.Json.Numbers
import CircuitLowering.Proofs.Json.Strings
import CircuitLowering.Proofs.Json.Lexing
import CircuitLowering.Proofs.Json.Reading
import CircuitLowering.Proofs.Json.Standard
import CircuitLowering.Proofs.Circuit.Document
import CircuitLowering.Proofs.Blif.Products
import CircuitLowering.Proofs.Emission.Shapes
import CircuitLowering.Proofs.Emission.SumsOfProducts
import CircuitLowering.Proofs.Emission.StatedWidths
import CircuitLowering.Proofs.Design.ParamTexts
import CircuitLowering.Proofs.Design.Fillers
import CircuitLowering.Proofs.Emission.Fillers
import CircuitLowering.Proofs.Blif.Enumeration
import CircuitLowering.Proofs.Design.Rtlil.Constants
import CircuitLowering.Proofs.Design.ObservedPorts
import CircuitLowering.Proofs.Design.Rtlil.Reading
import CircuitLowering.Proofs.Design.Walks
import CircuitLowering.Proofs.Catalog.Names
import CircuitLowering.Proofs.Catalog.Resizing
import CircuitLowering.Proofs.Catalog.Requests
import CircuitLowering.Proofs.Netlist.Slots
import CircuitLowering.Proofs.Design.ObservedBuses
import CircuitLowering.Proofs.Design.FreshWires

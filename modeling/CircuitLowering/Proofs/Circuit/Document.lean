import CircuitLowering.Circuit.Document
import CircuitLowering.Proofs.Json.Standard

/-!
# Circuit descriptions are read back

With any codec that follows its documentation, reading undoes writing for circuits, configurations and
parameter values: the shapes of all three fit.
-/

namespace CircuitLowering

open Json (Codec depthLimit)

namespace CircuitDescription

theorem fits_shape : shape.fits depthLimit = true := by
  decide +kernel

theorem parse_render {c : Codec} (h : c.Lawful) (d : CircuitDescription) : parse c (d.render c) = .ok d := by
  have hread : c.parseBytes? shape (d.render c).toUTF8.toList = some d :=
    h.parseBytes?_render fits_shape d
  rw [parse, parseBytes, hread]

/-- Nothing has to be said of a circuit. -/
theorem read?_empty {c : Codec} (h : c.Lawful) : c.read? shape (.record []) = some {} := by
  have hnames : (([] : List (String × Json)).map Prod.fst).Nodup := List.nodup_nil
  rw [shape, h.read?_record _ _ _ _ hnames]
  rfl

/-- The text of a circuit in its one written form: all fields, in the declared order. -/
def normalize (c : Codec) (text : String) : Except CircuitError String := (parse c text).map (render c)

/-- A text that is in the written form stays as it is. -/
theorem normalize_render {c : Codec} (h : c.Lawful) (d : CircuitDescription) :
    normalize c (d.render c) = .ok (d.render c) := by
  rw [normalize, parse_render h]
  rfl

end CircuitDescription

theorem Config.fits_shape : shape.fits depthLimit = true := by
  decide +kernel

/-- A setting that is left out has its default. -/
theorem Config.read?_empty {c : Codec} (h : c.Lawful) : c.read? shape (.record []) = some {} := by
  have hnames : (([] : List (String × Json)).map Prod.fst).Nodup := List.nodup_nil
  rw [shape, h.read?_record _ _ _ _ hnames]
  rfl

theorem Param.fits_shape : shape.fits depthLimit = true := by
  decide +kernel

/-- Reading undoes writing, for circuits as well as for configurations and parameter values; so a
circuit that is read and written once more has the same text. -/
theorem parse_render_of_lawful {c : Codec} (h : c.Lawful) :
    (∀ d : CircuitDescription, CircuitDescription.parse c (d.render c) = .ok d) ∧
    (∀ config : Config, Config.parse c (config.render c) = .ok config) ∧
    (∀ p : Param, Param.parse c (p.render c) = .ok p) ∧
    ∀ text : String, (CircuitDescription.normalize c text).bind (CircuitDescription.normalize c) =
      CircuitDescription.normalize c text := by
  refine ⟨CircuitDescription.parse_render h, fun config => ?_, fun p => ?_, fun text => ?_⟩
  · have hread : c.parseBytes? Config.shape (config.render c).toUTF8.toList = some config :=
      h.parseBytes?_render Config.fits_shape config
    rw [Config.parse, hread]
  · have hread : c.parseBytes? Param.shape (p.render c).toUTF8.toList = some p :=
      h.parseBytes?_render Param.fits_shape p
    rw [Param.parse, hread]
  · rw [CircuitDescription.normalize]
    cases CircuitDescription.parse c text with
    | error _ => rfl
    | ok d => exact d.normalize_render h

/-- A circuit with each of the three ways in which cases are told apart, and an open pin. -/
def sampleDescription : CircuitDescription where
  top := some "t\"1"
  models := [{ name := "m", inputs := [⟨"a", 2⟩], used := true }]
  inputs := ["x"]
  nodes := [
    { name := "r", kind := .register .falling .unknown,
      inputs := [{ mapping := "D", size := some 1, nets := [some "x"] }],
      outputs := [{ mapping := "Q", nets := [none] }],
      params := Ordered.ofList [("W", .int (-3)), ("S", .text "é\n")] },
    { name := "l", kind := .lut 1 "10" }]

theorem sampleDescription_parse_render :
    Codec.standard.Lawful ∧
    sampleDescription.render .standard = "\x7b\"top\":\"t\\\"1\"" ++
      ",\"models\":[\x7b\"name\":\"m\",\"inputs\":[\x7b\"name\":\"a\",\"size\":2\x7d],\"outputs\":[],\"used\":true\x7d]" ++
      ",\"inputs\":[\"x\"],\"outputs\":[],\"nodes\":[\x7b\"name\":\"r\"" ++
      ",\"kind\":\x7b\"type\":\"register\",\"edge\":\"falling\",\"init\":\"unknown\"\x7d" ++
      ",\"inputs\":[\x7b\"mapping\":\"D\",\"size\":1,\"nets\":[\"x\"]\x7d]" ++
      ",\"outputs\":[\x7b\"mapping\":\"Q\",\"size\":null,\"nets\":[null]\x7d]" ++
      ",\"params\":\x7b\"W\":\x7b\"int\":-3\x7d,\"S\":\x7b\"text\":\"é\\n\"\x7d\x7d\x7d" ++
      ",\x7b\"name\":\"l\",\"kind\":\x7b\"type\":\"lut\",\"width\":1,\"mask\":\"10\"\x7d,\"inputs\":[],\"outputs\":[],\"params\":\x7b\x7d\x7d]\x7d" ∧
    CircuitDescription.parse .standard (sampleDescription.render .standard) = .ok sampleDescription ∧
    ({ splitMemoryDepth := some 10 } : Config).render .standard =
      "\x7b\"top_module\":\"top\",\"split_memory_width\":false,\"split_memory_depth\":10" ++
      ",\"dual_port_split_depth\":null,\"emit_params\":true,\"traversal_mark\":1\x7d" ∧
    (Param.bits [.one, .zero, .unknown]).render .standard = "\x7b\"Bits\":[\"S1\",\"S0\",\"Sx\"]\x7d" ∧
    Param.parse .standard "\x7b\"Bits\":[\"S1\",\"S0\",\"Sx\"]\x7d" = .ok (.bits [.one, .zero, .unknown]) := by
  obtain ⟨hcircuit, -, hparam, -⟩ := parse_render_of_lawful Codec.lawful_standard
  have htext : (Param.bits [.one, .zero, .unknown]).render .standard =
      "\x7b\"Bits\":[\"S1\",\"S0\",\"Sx\"]\x7d" := by
    decide +kernel
  refine ⟨Codec.lawful_standard, ?_, hcircuit sampleDescription, ?_, htext, htext ▸ hparam _⟩
  · decide +kernel
  · decide +kernel

end CircuitLowering

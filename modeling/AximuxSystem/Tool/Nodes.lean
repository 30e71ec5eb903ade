import AximuxSystem.Tool.CsvStrings

/-!
# Nodes of the emitted source

What the reader makes of the emitted lines: one node for every mux, with one
child for every pin and every group or alias, then one node for every consumer.
-/

namespace AximuxSystem.Tool

open Collections Text Dts

variable (re : Regex) (naming : Naming)

def pinNode (mux : Mux) (pin : Pin) : Node :=
  .mk (some (pinLabel mux.inst pin.index)) (pinNodeName pin.index) (pinProps re naming mux pin) []

def groupNode (grp : String × List (ℕ × ℕ)) : Node :=
  .mk (some (groupLabel grp.1)) (groupNodeName grp.1) (groupProps grp.1 grp.2) []

def controllerNode (mux : Mux) : Node :=
  .mk none ("&" ++ mux.inst) controllerProps
    (mux.pins.map (pinNode re naming mux) ++ (mux.emittedGroups re naming).map groupNode)

def consumerNode (item : String × List String) : Node :=
  .mk none ("&" ++ item.1) (consumerProps item.2) []

/-- A node followed by an empty line. -/
theorem adds_node {body : List Line} {props : List (String × String)} {children : List Node}
    (h : Adds body props children) (indent : ℕ) (label : Option String) (name : String) :
    Adds (block indent label name body ++ [.text ""]) [] [.mk label name props children] :=
  (h.block indent label name).append (Adds.text "")

theorem adds_controllerLines (mux : Mux) :
    Adds (controllerLines re naming mux) [] [controllerNode re naming mux] := by
  have hpins : Adds (mux.pins.flatMap (pinLines re naming mux)) []
      (mux.pins.map (pinNode re naming mux)) :=
    Adds.flatMap fun pin _ => adds_node (Adds.props 4 (pinProps re naming mux pin)) _ _ _
  have hgroups : Adds ((mux.emittedGroups re naming).flatMap fun grp => groupLines grp.1 grp.2) []
      ((mux.emittedGroups re naming).map groupNode) :=
    Adds.flatMap fun grp _ => adds_node (Adds.props 4 (groupProps grp.1 grp.2)) _ _ _
  have hbody := (((Adds.props 2 controllerProps).append (Adds.text "")).append hpins).append hgroups
  simp only [List.append_nil, List.nil_append] at hbody
  exact adds_node hbody 0 none _

/-- What the reader makes of the emitted source. -/
theorem readFile_emitPinctrl2 (muxes : List Mux) :
    readFile (emitPinctrl2 re naming muxes) = some (muxes.map (controllerNode re naming) ++
      (byConsumer re naming muxes).sortedItems.map consumerNode) := by
  have hmuxes : Adds (muxes.flatMap (controllerLines re naming)) []
      (muxes.map (controllerNode re naming)) :=
    Adds.flatMap fun mux _ => adds_controllerLines re naming mux
  have hconsumers : Adds
      ((byConsumer re naming muxes).sortedItems.flatMap fun item => consumerLines item.1 item.2) []
      ((byConsumer re naming muxes).sortedItems.map consumerNode) :=
    Adds.flatMap fun item _ => adds_node (Adds.props 2 (consumerProps item.2)) _ _ _
  have hfile (s t u : String) := ((((Adds.text "").text_cons t).text_cons s).append hmuxes).append
    ((Adds.text "").text_cons u) |>.append hconsumers
  simp only [List.append_nil, List.nil_append] at hfile
  exact readFile_of_adds (hfile _ _ _)

end AximuxSystem.Tool

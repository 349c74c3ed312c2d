import CurryGen.Config.Settings
import CurryGen.Text.Blank
import CurryGen.Yaml.Node

/-!
# Configuration files

A configuration file is a YAML document. Every scalar can be read as the text it is written with.

* `Config.ofYaml?`: the configuration that a YAML text describes.
-/

namespace CurryGen

namespace Setting

/-- The spellings of null. -/
def nullWords : List String := ["null", "Null", "NULL", "~"]

/-- What a scalar says where a value may be absent. A plain scalar is absent if it is null or nothing
at all; with the tag of null it must be null, and with another tag it is present. -/
def presence (word : String) (plain : Bool) (tag : Option String) : Presence :=
  if !plain then .present
  else match tag with
    | none => if word == "" || nullWords.contains word then .absent else .present
    | some tag =>
      if tag != Yaml.Written.standardTag "null" then .present
      else if nullWords.contains word then .absent
      else .contradictory

mutual

/-- The settings that a YAML node describes. -/
def ofNode : Yaml.Node → Setting
  | .scalar word plain tag => .text word (presence word plain tag) (plain && word == "")
  | .sequence items => .list (ofNodes items)
  | .mapping entries =>
    match ofEntries? entries with
    | some entries => .group entries
    | none => .other

def ofNodes : List Yaml.Node → List Setting
  | [] => []
  | node :: nodes => ofNode node :: ofNodes nodes

/-- The entries of a mapping whose keys are scalars. -/
def ofEntries? : List (Yaml.Node × Yaml.Node) → Option (List (String × Setting))
  | [] => some []
  | (.scalar key _ _, value) :: entries =>
    (ofEntries? entries).map fun rest => (key, ofNode value) :: rest
  | _ :: _ => none

end

end Setting

/-- The configuration that a YAML text describes. A text without content describes the default. -/
def Config.ofYaml? (text : String) : Option Config :=
  if Text.trim text = "" then some {}
  else match Yaml.Node.read? text with
    | none => none
    | some none => some {}
    | some (some root) => Config.ofSetting? (Setting.ofNode root)

end CurryGen

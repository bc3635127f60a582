import FieldCatalog.Settings.Value

/-!
# Layers of settings

A layer is a list of keys with values. The keys of a file are what the file says; those of an
environment are names of variables without a fixed word at their front. A key can be longer than the
name of a setting and then leads into it.

## Main definitions

* `Settings.environmentKey?`: the key that a variable of the environment names
* `Settings.areSteps`, `Settings.leadsInto`: keys of parts of a setting
* `Settings.Layer.value?`: what a layer gives for a setting
* `Settings.overriding`: what two layers give for a setting
-/

namespace FieldCatalog.Settings

/-- The lower case of a letter of the Latin alphabet. The Kelvin sign is a capital `k`; no other
character beyond ASCII has an ASCII letter as its lower case. -/
def lowerCase (c : Char) : Char :=
  if c = '\u212a' then 'k' else c.toLower

/-- The key that a variable of the environment names: its name starts with a fixed word and one
underscore, in any case. -/
def environmentKey? (name : String) : Option String :=
  let lower := name.toList.map lowerCase
  let start := "fieldkeeper_".toList
  if lower.take start.length = start then some (String.ofList (lower.drop start.length)) else none

/-- The characters of the words in a key. -/
def isWordChar (c : Char) : Bool := c.isAlphanum || c == '_' || c == '-'

/-- Whether a text is an index: an integer of a signed word, with a minus sign or none, and blanks
around it. -/
def isIndex (cs : List Char) : Bool :=
  let isBlank (c : Char) : Bool := c == ' ' || c == '\t'
  let bare := ((cs.dropWhile isBlank).reverse.dropWhile isBlank).reverse
  match bare with
  | '+' :: _ => false
  | bare => (Decimal.integer? bare).any fun i => Decimal.InWord i

/-- Whether a text consists of steps: `.word` leads into a table, `[index]` into an array. -/
def areSteps : List Char → Bool
  | [] => true
  | '.' :: cs => !(cs.takeWhile isWordChar).isEmpty && areSteps (cs.dropWhile isWordChar)
  | '[' :: cs => isIndex (cs.takeWhile (· != ']')) &&
    match h : cs.dropWhile (· != ']') with
    | [] => false
    | _ :: rest =>
      have : rest.length < cs.length := by
        have := (List.dropWhile_suffix (l := cs) (· != ']')).length_le
        simp only [h, List.length_cons] at this
        omega
      areSteps rest
  | _ :: _ => false
termination_by cs => cs.length
decreasing_by
  · have := (List.dropWhile_suffix (l := cs) isWordChar).length_le
    simp only [List.length_cons]
    omega
  · simp only [List.length_cons]
    omega

/-- Whether a key leads to a part of a setting: the name of the setting and at least one step. -/
def leadsInto (setting key : String) : Bool :=
  let steps := key.toList.dropWhile isWordChar
  key.toList.takeWhile isWordChar = setting.toList && !steps.isEmpty && areSteps steps

/-- The keys of one layer in the order in which they take effect, with what they give. -/
abbrev Layer := List (String × Value)

/-- The layer of a settings file. -/
def fileLayer (file : Toml.Entries) : Layer :=
  file.map fun entry => (entry.1, Value.ofToml entry.2)

/-- The layer of an environment. -/
def environmentLayer (environment : List (String × String)) : Layer :=
  environment.filterMap fun entry =>
    (environmentKey? entry.1).map fun key => (key, .text entry.2)

/-- What a layer gives for a setting; the last key for it counts. A key that leads into the setting
makes it composite. -/
def Layer.value? (layer : Layer) (setting : String) : Option Value :=
  layer.reverse.findSome? fun entry =>
    if entry.1 = setting then some entry.2
    else if leadsInto setting entry.1 then some .composite
    else none

/-- The value of a setting, from the environment if it is given there and else from the file. -/
def overriding (file environment : Layer) (key : String) : Option Value :=
  environment.value? key <|> file.value? key

end FieldCatalog.Settings

import RichText.Kdl.Value
import RichText.Registry.Standard

/-!
Configuration: settings of the standard actions, and further actions. Later settings replace earlier
ones, actions add up, and nodes of other names are passed over.
-/

namespace RichText

inductive ConfigError where
  | unreadable (path : String)
  | malformed (path : String)
  /-- A node, or the action that it names, lacks something. -/
  | missing (node what : String)
  | invalid (node : String) (value : Text) (expected : String)
  deriving DecidableEq, Repr

def ConfigError.diagnostic : ConfigError → Diagnostic
  | .unreadable path => ⟨"could not read config file " ++ path, "toolbox::config::read", none⟩
  | .malformed path => ⟨"invalid KDL in " ++ path, "toolbox::config::parse", none⟩
  | .missing node what =>
    ⟨"`" ++ node ++ "` is missing " ++ what, "toolbox::config::missing_value", none⟩
  | .invalid node value expected =>
    ⟨"`" ++ node ++ "` has invalid value `" ++ String.ofList value ++ "`",
      "toolbox::config::invalid_value", some ("expected one of: " ++ expected)⟩

structure Config where
  settings : Settings := {}
  actions : List Action := []
  deriving DecidableEq, Repr

/-- A configuration file; one that cannot be read has no text. -/
structure ConfigFile where
  path : String
  text : Option Text
  deriving DecidableEq, Repr

namespace Config

/-- The value, or the error that it is missing. -/
def require (value : Option Text) (node what : String) : Except ConfigError Text :=
  match value with
  | some s => .ok s
  | none => .error (.missing node what)

def readPolicy (node : Kdl.Node) : Except ConfigError Policy := do
  let value ← require node.argument? node.name "a policy"
  if value = "verbatim".toList then .ok .verbatim
  else if value = "escape-text".toList then .ok .escaped
  else .error (.invalid node.name value "verbatim, escape-text")

/-- What is missing in an action is said of its own name. -/
def readEnclose (node : Kdl.Node) (name : String) : Except ConfigError Transform := do
  let opening ← require (node.property? "open") name "open="
  let closing ← require (node.property? "close") name "close="
  return .enclose opening closing

def readTransform (node : Kdl.Node) (name : String) : Except ConfigError Transform := do
  let kind ← require (node.property? "kind") name "kind="
  match String.ofList kind with
  | "wrap" => return .wrap (← require (node.property? "open") name "open=")
  | "distinct" => readEnclose node name
  | "line-break" =>
    if (node.property? "open").isSome then return .breakThen (← readEnclose node name)
    else return .lineBreak
  | "delete" => return .delete
  | "remove-formatting" => return .unformat
  | _ => .error (.invalid name kind "wrap, distinct, line-break, delete, remove-formatting")

def readAction (node : Kdl.Node) : Except ConfigError Action := do
  let name := String.ofList (← require node.argument? node.name "an action name")
  return ⟨name, ← readTransform node name⟩

/-- Takes in one node. -/
def add (c : Config) (node : Kdl.Node) : Except ConfigError Config :=
  match node.name with
  | "link-url" => do
    let url ← require node.argument? node.name "a URL"
    return { c with settings := { c.settings with linkTarget := url } }
  | "image-url" => do
    let url ← require node.argument? node.name "a URL"
    return { c with settings := { c.settings with imageSource := url } }
  | "content-policy" => do
    let policy ← readPolicy node
    return { c with settings := { c.settings with policy := policy } }
  | "action" => do
    let a ← readAction node
    return { c with actions := c.actions ++ [a] }
  | _ => .ok c

/-- Reads nodes in order, up to the first that is not valid. -/
def ofNodes (nodes : List Kdl.Node) : Except ConfigError Config := nodes.foldlM add {}

/-- Loads a file, given the reader of its language. Without a file everything has its default. -/
def load (nodes? : Text → Option (List Kdl.Node)) : Option ConfigFile → Except ConfigError Config
  | none => .ok {}
  | some file =>
    match file.text with
    | none => .error (.unreadable file.path)
    | some text =>
      match nodes? text with
      | none => .error (.malformed file.path)
      | some nodes => ofNodes nodes

def registry (c : Config) : Except ActionError Registry :=
  Registry.ofSettings c.settings c.actions

end Config

end RichText

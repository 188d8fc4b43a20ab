import BuildIdCache.Config.Json
import BuildIdCache.Config.Yaml
import BuildIdCache.World

set_option autoImplicit false

namespace BuildIdCache

inductive ConfigFormat
  | yaml
  | json
deriving DecidableEq, Repr

def ConfigFormat.name : ConfigFormat → String
  | yaml => "YAML"
  | json => "JSON"

def ConfigFormat.ofExtension? (extension : String) : Option ConfigFormat :=
  if extension = "yaml" ∨ extension = "yml" then some .yaml
  else if extension = "json" then some .json
  else none

inductive ConfigError
  | unreadable (path : Path)
  | malformed (format : ConfigFormat) (path : Path)
  | unknownFormat (extension : String) (path : Path)
deriving DecidableEq

def ConfigError.message : ConfigError → String
  | unreadable path => s!"Failed to read builder config at {path.display}"
  | malformed format path => s!"Failed to parse {format.name} config {path.display}"
  | unknownFormat extension path =>
    s!"Unsupported config format '{extension}' for {path.display} " ++
      "(expected yaml, yml or json)"

namespace Config

def extensionText (path : Path) : String :=
  ((path.extension?.map fun bytes => ByteArray.mk bytes.toArray).bind decodeStrict?).getD ""

def parse? (format : ConfigFormat) (text : String) : Option Config :=
  match format with
  | .yaml => ofYaml? text
  | .json => (Json.Value.parse? text).bind ofJson?

def load (fs : FileSystem) (path : Path) : Except ConfigError Config :=
  match fs.read path with
  | .error _ => .error (.unreadable path)
  | .ok content =>
    match decodeStrict? content with
    | none => .error (.unreadable path)
    | some text =>
      match ConfigFormat.ofExtension? (extensionText path) with
      | none => .error (.unknownFormat (extensionText path) path)
      | some format =>
        match parse? format text with
        | some config => .ok config
        | none => .error (.malformed format path)

end Config

end BuildIdCache

import BuildIdCache.Config.Json
import BuildIdCache.Yaml.Node

set_option autoImplicit false

namespace BuildIdCache.Config

open Yaml

def nullTag : String := "tag:yaml.org,2002:null"
def boolTag : String := "tag:yaml.org,2002:bool"

def isNullText (text : String) : Bool :=
  text = "null" || text = "Null" || text = "NULL" || text = "~"

def boolOfText? (text : String) : Option Bool :=
  if text = "true" || text = "True" || text = "TRUE" then some true
  else if text = "false" || text = "False" || text = "FALSE" then some false
  else none

def textOfNode? : Node → Option String
  | .scalar _ _ text => some text
  | _ => none

def pathOfNode? (node : Node) : Option Path := (textOfNode? node).map Path.ofString

def boolOfNode? : Node → Option Bool
  | .scalar style tag text =>
    if style = .plain || (style = .literal && tag = some boolTag) then boolOfText? text else none
  | _ => none

def optionalPathOfNode? : Node → Option (Option Path)
  | .scalar style tag text =>
    let path := some (some (Path.ofString text))
    if style ≠ .plain then path
    else
      match tag with
      | some tag =>
        if tag = nullTag then if isNullText text then some none else none else path
      | none => if text.isEmpty || isNullText text then some none else path
  | _ => none

def inspectorOfNode? : Node → Option InspectorKind
  | .scalar style tag text =>
    match tag.map String.toList with
    | some ('!' :: name) =>
      if style = .plain && (text.isEmpty || isNullText text) then
        InspectorKind.ofName? (String.ofList name)
      else none
    | _ => InspectorKind.ofName? text
  | _ => none

def resolveAlias (document : Document) (node : Node) : Option Node :=
  match node with
  | .alias number => document.target? number
  | node => some node

def pathsOfNode? (document : Document) : Node → Option (List Path)
  | .sequence _ items =>
    items.mapM fun item => (resolveAlias document item).bind pathOfNode?
  | .scalar .plain _ "" => some []
  | _ => none

def keyedMembers? (document : Document) (members : List (Node × Node)) :
    Option (List (String × Node)) :=
  members.mapM fun m => do
    let key ← resolveAlias document m.1
    return (← textOfNode? key, m.2)

def memberOr? {α : Type} (document : Document) (members : List (String × Node)) (name : String)
    (default : α) (decode : Node → Option α) : Option α :=
  match members.filter fun m => m.1 = name with
  | [] => some default
  | [(_, node)] => (resolveAlias document node).bind decode
  | _ => none

def ofMembers? (document : Document) (members : List (String × Node)) : Option Config := do
  let path? (name : String) := memberOr? document members name none optionalPathOfNode?
  return {
    cacheDir := ← memberOr? document members "cache_dir" Config.default.cacheDir pathOfNode?
    searchDirs := ← memberOr? document members "search_dirs" [] (pathsOfNode? document)
    disableRoot := ← memberOr? document members "disable_adb_root" false boolOfNode?
    toolchain := ← path? "ndk_path"
    adb := ← path? "adb_path"
    readelf := ← path? "readelf_path"
    profiler := ← path? "simpleperf_path"
    inspector := ← memberOr? document members "inspector" .readelf inspectorOfNode? }

def ofYaml? (text : String) : Option Config := do
  match ← documents? text with
  | [] => return .default
  | [document] =>
    match document.root with
    | .mapping _ members => ofMembers? document (← keyedMembers? document members)
    | .scalar .plain _ "" => return .default
    | _ => none
  | _ => none

end BuildIdCache.Config

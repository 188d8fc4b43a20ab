import BuildIdCache.Text.Blank
import BuildIdCache.Text.Lines

set_option autoImplicit false

namespace BuildIdCache

structure IndexRecord where
  buildId : String
  path : String
deriving DecidableEq, Inhabited

structure Index where
  records : List IndexRecord
deriving DecidableEq, Inhabited

namespace Index

open Text

-- A record is cut at its first "="; both sides have to be there.
def parseLine? (line : List Char) : Option IndexRecord :=
  match cut? '=' line with
  | some (buildId, path) =>
    if buildId.isEmpty ∨ path.isEmpty then none
    else some ⟨String.ofList buildId, String.ofList path⟩
  | none => none

def parse (body : String) : Index := ⟨(lines body.toList).filterMap parseLine?⟩

def renderRecord (record : IndexRecord) : String := record.buildId ++ "=" ++ record.path ++ "\n"

def render (records : List IndexRecord) : String := String.join (records.map renderRecord)

def lookup? (index : Index) (buildId : String) : Option String :=
  (index.records.find? fun record => record.buildId = buildId).map (·.path)

end Index

end BuildIdCache

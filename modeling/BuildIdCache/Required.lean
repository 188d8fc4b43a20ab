import BuildIdCache.SortedMap
import BuildIdCache.Text.Blank

set_option autoImplicit false

namespace BuildIdCache

def fileNameOf (path : String) : String :=
  String.ofList (path.toList.reverse.takeWhile (· ≠ '/')).reverse

def startsWith (path start : String) : Bool := start.toList.isPrefixOf path.toList

def kernelDso : String := "[kernel.kallsyms]"
def kernelKey : String := "vmlinux"
def anonymousDso : String := "//anon"
def deviceNodes : String := "/dev/"
def jitSymbolFiles : String := "TemporaryFile"

def isJitSymbolFile (dso : String) : Bool := startsWith (fileNameOf dso) jitSymbolFiles

/-- The binaries that a trace needs: the path of each with its expected build-id, which is empty
where the trace holds none. -/
abbrev RequiredBinaries : Type := SortedMap String String

namespace RequiredBinaries

def ofList (entries : List (String × String)) : RequiredBinaries :=
  entries.foldl (fun binaries e => (binaries.insertIfAbsent e.1 e.2).2) .empty

def addToBucket (buckets : SortedMap String (List (String × String))) (entry : String × String) :
    SortedMap String (List (String × String)) :=
  let name := fileNameOf entry.1
  buckets.insert name ((buckets.get? name).getD [] ++ [entry])

def byFileName (binaries : RequiredBinaries) : SortedMap String (List (String × String)) :=
  binaries.entries.foldl addToBucket .empty

end RequiredBinaries

end BuildIdCache

set_option autoImplicit false

namespace BuildIdCache

/-- What one source did: the paths it brought into the cache, those whose cached copy was good
enough, and those it could not get. -/
structure SourceReport where
  source : String
  collected : List String
  reused : List String
  failed : List String
  kernelSymbols : Bool
deriving DecidableEq, Inhabited

def SourceReport.start (source : String) : SourceReport := ⟨source, [], [], [], false⟩

end BuildIdCache

import BuildIdCache.World

set_option autoImplicit false

namespace BuildIdCache.Elf

def magic : List UInt8 := [0x7F, 0x45, 0x4C, 0x46]

def hasMagic (content : ByteArray) : Bool :=
  magic.isPrefixOf (content.extract 0 magic.length).data.toList

def isElfFile (fs : FileSystem) (path : Path) : Bool :=
  match fs.read path with
  | .ok content => hasMagic content
  | .error _ => false

end BuildIdCache.Elf

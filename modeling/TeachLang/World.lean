import TeachLang.CommandLine

/-!
# Hosts whose state is a value

Files are kept in some storage, of which no more is known than what is read from a path and what it
comes to that a file is made.
-/

namespace TeachLang.CommandLine

structure Storage (F : Type) where
  read (files : F) (path : String) : Except String ByteArray
  create (files : F) (path : String) (bytes : ByteArray) : Except String Unit × F

/-- The files, the input that is left, and what the clock will show, one look after another. -/
structure World (F : Type) where
  files : F
  input : List UInt8 := []
  clock : List Nat := []

def Storage.host {F : Type} (s : Storage F) : Host (StateM (World F)) where
  readFile path := return s.read (← get).files path
  createFile path bytes :=
    modifyGet fun w =>
      let (result, files) := s.create w.files path bytes
      (result, { w with files := files })
  readInput := modifyGet fun w => (w.input, { w with input := [] })
  clock := modifyGet fun w => (w.clock.headD 0, { w with clock := w.clock.tail })

end TeachLang.CommandLine

import TracedScript.Position

/-
  Tables of source files.

  A table keeps its files in a list and the number of each name
  in a dictionary. No operation searches the list.

  Key definitions include:
    * `SourceFiles`
    * `SourceFiles.add`, `SourceFiles.addText`
    * `SourceFiles.get?`, `SourceFiles.find?`
-/

------------------------------------------------------------
-- Tables
------------------------------------------------------------

namespace TracedScript

/- A source file with its text, if the text is known. -/
structure SourceFile where
  name : String
  text : Option String
deriving DecidableEq, Repr

/-
  Source files, numbered from zero in the order of the list,
  and the numbers of their names. An entry of the dictionary
  hides all entries for its name that come after it.
-/
structure SourceFiles where
  files : List SourceFile := []
  numbers : List (String × FileId) := []
deriving DecidableEq, Repr

namespace SourceFiles

/- The number of the file with a name. -/
def find?
    (table : SourceFiles)
    (name : String) :
    Option FileId :=
  table.numbers.lookup name

/- The file with a number. -/
def get?
    (table : SourceFiles)
    (file : FileId) :
    Option SourceFile :=
  table.files[file.index.toNat]?

/- The name of the file with a number. -/
def name?
    (table : SourceFiles)
    (file : FileId) :
    Option String :=
  (table.get? file).map SourceFile.name

/- Whether there is a file with a number. -/
def contains
    (table : SourceFiles)
    (file : FileId) :
    Bool :=
  file.index.toNat < table.files.length

/- The number of files. -/
def size (table : SourceFiles) : Nat :=
  table.files.length

/- All files with their numbers. -/
def toList (table : SourceFiles) : List (FileId × SourceFile) :=
  table.files.zipIdx.map fun (file, index) =>
    (⟨UInt32.ofNat index⟩, file)

/-
  The number of a file. A new file takes the next number, and a
  file that is there takes a text only if it has none.
-/
def addFile
    (table : SourceFiles)
    (name : String)
    (text : Option String) :
    FileId × SourceFiles :=
  match table.numbers.lookup name with
  | some file =>
      (file,
        { table with
          files :=
            table.files.modify file.index.toNat fun entry =>
              { entry with text := entry.text.or text } })
  | none =>
      let file : FileId := ⟨UInt32.ofNat table.files.length⟩
      (file,
        { files := table.files ++ [⟨name, text⟩]
          numbers := (name, file) :: table.numbers })

/- The number of a file whose text is not given. -/
def add
    (table : SourceFiles)
    (name : String) :
    FileId × SourceFiles :=
  table.addFile name none

/- The number of a file whose text is given; the first text stays. -/
def addText
    (table : SourceFiles)
    (name text : String) :
    FileId × SourceFiles :=
  table.addFile name (some text)

end SourceFiles

end TracedScript

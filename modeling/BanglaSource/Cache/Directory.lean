-- SUMMARY: The directory in which the cache keeps its files, as a value with the operations that can fail on it.
import BanglaSource.Assoc

/-!
# Directories

A cache directory may be missing, may be impossible to create, may be a regular
file, or may hold files and folders under names. Operations succeed or fail as a
whole; one that fails changes nothing.
-/
namespace BanglaSource

/-- What a file holds. -/
inductive Content where
  | text (value : Text)
  /-- Bytes that are not the encoding of a text. -/
  | binary (bytes : ByteArray)

namespace Content

def ofBytes (bytes : ByteArray) : Content :=
  match Text.ofUtf8? bytes with
  | some s => .text s
  | none => .binary bytes

/-- The size in bytes. -/
def size : Content → Nat
  | .text s => Text.byteLength s
  | .binary bytes => bytes.size

end Content

/-- What stands under a name in a directory. -/
inductive Node where
  | file (content : Content)
  | folder

namespace Node

/-- The size in bytes. A folder counts as one block of the file system. -/
def size : Node → Nat
  | .file content => content.size
  | .folder => 4096

end Node

/-- The path at which the cache keeps its files. -/
inductive Directory where
  /-- Nothing is there. The directory can be created. -/
  | missing
  /-- A file stands in the place of a parent. Nothing can ever be there. -/
  | blocked
  /-- A regular file stands at the path itself. -/
  | occupied
  /-- A directory with its nodes. -/
  | present (nodes : Assoc Node)

namespace Directory

/-- What reading a file as text gives. -/
inductive Reading where
  | text (value : Text)
  | missing
  | failed
deriving DecidableEq, Repr

/-- Whether something is at the path. -/
def isThere : Directory → Bool
  | .occupied | .present _ => true
  | .missing | .blocked => false

/-- What is under a name. -/
def find? (name : Text) : Directory → Option Node
  | .present nodes => Assoc.find? name nodes
  | _ => none

/-- The names in the directory, sorted. -/
def names? : Directory → Option (List Text)
  | .present nodes => some (Assoc.keys nodes)
  | _ => none

/-- Reads a file as text. -/
def read (d : Directory) (name : Text) : Reading :=
  match d with
  | .missing => .missing
  | .blocked | .occupied => .failed
  | .present nodes =>
    match Assoc.find? name nodes with
    | none => .missing
    | some (.file (.text s)) => .text s
    | some (.file (.binary _)) | some .folder => .failed

/-- Creates the directory with its parents, if it is not there. -/
def create? : Directory → Option Directory
  | .missing => some (.present [])
  | .present nodes => some (.present nodes)
  | .blocked | .occupied => none

/-- Writes a file, over an old one if there is one. A folder is in the way. -/
def write? (d : Directory) (name : Text) (content : Content) : Option Directory :=
  match d with
  | .present nodes =>
    match Assoc.find? name nodes with
    | some .folder => none
    | _ => some (.present (Assoc.insert name (.file content) nodes))
  | _ => none

/-- Creates a folder, if it is not there. A file is in the way. -/
def createFolder? (d : Directory) (name : Text) : Option Directory :=
  match d with
  | .present nodes =>
    match Assoc.find? name nodes with
    | some (.file _) => none
    | some .folder => some d
    | none => some (.present (Assoc.insert name .folder nodes))
  | _ => none

/-- Removes a file. Folders are not removed. -/
def remove? (d : Directory) (name : Text) : Option Directory :=
  match d with
  | .present nodes =>
    match Assoc.find? name nodes with
    | some (.file _) => some (.present (Assoc.erase name nodes))
    | _ => none
  | _ => none

/-- Moves a file to another name, over an old file if there is one. A folder is
    in the way. -/
def rename? (d : Directory) (source target : Text) : Option Directory :=
  match d with
  | .present nodes =>
    match Assoc.find? source nodes, Assoc.find? target nodes with
    | some (.file _), some .folder => none
    | some (.file content), _ =>
      some (.present (Assoc.insert target (.file content) (Assoc.erase source nodes)))
    | _, _ => none
  | _ => none

/-- Removes the directory with everything in it. A missing one is removed
    already. -/
def removeAll? : Directory → Option Directory
  | .missing | .present _ => some .missing
  | .blocked | .occupied => none

end Directory
end BanglaSource

/-!
# Source files

A tree of directories and files, in which the command's source can be looked up
by its path, and the reasons why a path leads to no source. Without a path the
source is standard input.
-/

namespace Lisplet

inductive AccessError
  | notFound
  | permissionDenied
  | notDirectory
  | isDirectory
  | nameTooLong
  | other (code : Nat) (text : String)
deriving DecidableEq, Repr

namespace AccessError

def code : AccessError → Nat
  | notFound => 2
  | permissionDenied => 13
  | notDirectory => 20
  | isDirectory => 21
  | nameTooLong => 36
  | other n _ => n

def text : AccessError → String
  | notFound => "No such file or directory"
  | permissionDenied => "Permission denied"
  | notDirectory => "Not a directory"
  | isDirectory => "Is a directory"
  | nameTooLong => "File name too long"
  | other _ s => s

def message (e : AccessError) : String :=
  e.text ++ " (os error " ++ toString e.code ++ ")"

def named : List AccessError :=
  [notFound, permissionDenied, notDirectory, isDirectory, nameTooLong]

def ofCode (code : Nat) (text : String) : AccessError :=
  (named.find? fun e => e.code = code).getD (other code text)

end AccessError

inductive FileTree
  | file (bytes : ByteArray)
  | directory (entries : List (String × FileTree))

namespace FileTree

def longestName : Nat := 255

def longestPath : Nat := 4095

def child (entries : List (String × FileTree)) (name : String) : Except AccessError FileTree :=
  if longestName < name.utf8ByteSize then .error .nameTooLong
  else match entries.lookup name with
    | some t => .ok t
    | none => .error .notFound

/-- Follows names from `here`, whose parents are `above`, the nearest first.
Only directories have names in them, the empty name and the dots included. -/
def walk (above : List FileTree) (here : FileTree) : List String → Except AccessError FileTree
  | [] => .ok here
  | name :: names =>
    match here with
    | file _ => .error .notDirectory
    | directory entries =>
      if name = "" ∨ name = "." then walk above here names
      else if name = ".." then
        match above with
        | parent :: above => walk above parent names
        | [] => walk [] here names
      else
        match child entries name with
        | .ok t => walk (here :: above) t names
        | .error e => .error e

def bytes : FileTree → Except AccessError ByteArray
  | file bytes => .ok bytes
  | directory _ => .error .isDirectory

/-- The names that a path stands for: a path without a slash in front starts at `home`. -/
def names (home : List String) (path : String) : List String :=
  if path.startsWith "/" then path.splitOn "/" else home ++ path.splitOn "/"

def read (root : FileTree) (home : List String) (path : String) : Except AccessError ByteArray :=
  if longestPath < path.utf8ByteSize then .error .nameTooLong
  else walk [] root (names home path) >>= bytes

end FileTree

structure Surroundings where
  files : FileTree
  home : List String := []
  stdin : ByteArray := .empty

def Surroundings.read (w : Surroundings) : Option String → Except AccessError ByteArray
  | some path => w.files.read w.home path
  | none => .ok w.stdin

end Lisplet

import TastyLang.Text.Pieces

/-!
# Paths

The parts of paths with slashes: the last element, its extension, the directory in front of it.
`clean` drops what means nothing in a path; `joinPath` puts paths together, and `relativePath` finds
the way from one to another.
-/

namespace TastyLang.Text

/-- The last element of a path; a dot when there is none. -/
def baseName (path : String) : String :=
  if path = "" then "."
  else
    let cs := (path.toList.reverse.dropWhile (· = '/')).reverse
    if cs.isEmpty then "/"
    else String.ofList ((cs.reverse.takeWhile (· ≠ '/')).reverse)

/-- The extension of a path: the tail of its last element from the last dot on. -/
def extension (path : String) : String :=
  let tail := path.toList.reverse.takeWhile fun c => c ≠ '/' && c ≠ '.'
  match path.toList.reverse.drop tail.length with
  | '.' :: _ => String.ofList ('.' :: tail.reverse)
  | _ => ""

def withoutExtension (path : String) : String := dropTail (extension path) path

/-- The elements of a path without empty ones, dots, and pairs that cancel out. `rooted` paths do
not go above their root. -/
def cleanElements (rooted : Bool) (elems : List String) : List String :=
  (elems.foldl (fun acc e =>
    if e = "" || e = "." then acc
    else if e = ".." then
      match acc with
      | [] => if rooted then [] else [".."]
      | ".." :: _ => ".." :: acc
      | _ :: rest => rest
    else e :: acc) []).reverse

/-- The shortest path that means the same. -/
def clean (path : String) : String :=
  let rooted := startsWith "/" path
  let elems := cleanElements rooted (cut '/' path)
  if rooted then "/" ++ join "/" elems
  else if elems.isEmpty then "." else join "/" elems

/-- Paths put together; empty ones count for nothing. -/
def joinPath (paths : List String) : String :=
  match paths.filter (· ≠ "") with
  | [] => ""
  | ps => clean (join "/" ps)

def isAbsolute (path : String) : Bool := startsWith "/" path

/-- The path without its last element. -/
def dirName (path : String) : String :=
  let cs := path.toList
  let last := cs.reverse.takeWhile (· ≠ '/')
  clean (String.ofList (cs.take (cs.length - last.length)))

/-- The path as it is seen from the directory `base`. -/
def resolvePath (base path : String) : String :=
  if isAbsolute path then clean path else joinPath [base, path]

/-- The names along a path. -/
def elements (path : String) : List String := (cut '/' path).filter (· ≠ "")

/-- The names behind a common head. -/
def withoutCommon : List String → List String → List String × List String
  | a :: as, b :: bs => if a = b then withoutCommon as bs else (a :: as, b :: bs)
  | as, bs => (as, bs)

/-- The way from the directory `base` to `path`, both of which start at the root. -/
def relativePath (base path : String) : String :=
  match withoutCommon (elements base) (elements path) with
  | ([], []) => "."
  | (up, down) => join "/" (up.map (fun _ => "..") ++ down)

/-- Whether a relative path stays inside of its directory. -/
def staysInside (rel : String) : Bool :=
  match elements rel with
  | ".." :: _ => false
  | _ => true

/-- A path up to each of its names, the shortest first. -/
def heads (path : String) : List String :=
  let es := elements path
  let root := if isAbsolute path then "/" else ""
  (List.range es.length).map fun n => root ++ join "/" (es.take (n + 1))

/-- The directories around a path that starts at the root, the outermost first. -/
def ancestors (path : String) : List String := (heads path).dropLast

end TastyLang.Text

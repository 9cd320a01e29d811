import NixStore.StorePath.Basic

/-!
# Store directories

The directory that stands before the names of store paths: an absolute path that is not the root,
without slashes at its end. A full path is the directory, a slash and a store path, and is read
back by taking off exactly that much, so that only one directory accepts it.
-/

namespace NixStore

namespace Text

/-- Drops slashes from the end of a text, but not its first character. -/
def dropTrailingSlashes : Text → Text
  | [] => []
  | c :: rest => c :: (rest.reverse.dropWhile (· = '/')).reverse

end Text

/-- An absolute path that is not the root and does not end in a slash. -/
structure StoreDir where
  text : Text
  absolute : text.head? = some '/'
  normal : Text.dropTrailingSlashes text = text
  two_le_length : 2 ≤ text.length
deriving DecidableEq

namespace StoreDir

theorem dropTrailingSlashes_idem (t : Text) :
    Text.dropTrailingSlashes (Text.dropTrailingSlashes t) = Text.dropTrailingSlashes t := by
  cases t with
  | nil => rfl
  | cons c rest =>
    simp only [Text.dropTrailingSlashes, List.reverse_reverse, List.cons.injEq, true_and,
      List.reverse_inj]
    generalize rest.reverse = l
    induction l with
    | nil => rfl
    | cons a l ih =>
      by_cases h : a = '/'
      · simp [h, ih]
      · simp [h]

/-- Reads a directory; slashes at its end are dropped. -/
def ofText (t : Text) : Except StorePathError StoreDir :=
  let dir := Text.dropTrailingSlashes t
  if h : dir.head? = some '/' ∧ 2 ≤ dir.length then
    .ok ⟨dir, h.1, dropTrailingSlashes_idem t, h.2⟩
  else .error (.relativeStoreDir dir)

/-- The directory of a store that names no other. -/
def default : StoreDir := ⟨NixStore.text "/nix/store", rfl, by decide, by decide⟩

instance : Inhabited StoreDir := ⟨default⟩

def print (d : StoreDir) (p : StorePath) : Text := d.text ++ '/' :: p.text

def parse (d : StoreDir) (full : Text) : Except StorePathError StorePath :=
  match Text.after? (d.text ++ ['/']) full with
  | some rest => StorePath.ofUtf8 rest
  | none => .error (.notInStore full d.text)

def toString (d : StoreDir) : String := String.ofList d.text

instance : ToString StoreDir := ⟨toString⟩

end StoreDir

end NixStore

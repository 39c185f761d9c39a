import PicoLang.Image.Codec
import PicoLang.Program
import PicoLang.Text.Amount

/-!
A cache of compiled programs. It keeps images by the digest of their source; an image that cannot be
used, or was made from another source, is dropped when it is asked for. A program from the cache is
still checked and linted, so that it differs in nothing from one that is built anew.
-/

namespace PicoLang

/-- An image that is kept. -/
structure StoreEntry where
  key : Text
  id : Text
  /-- The bytes of the image. -/
  image : Text
  deriving DecidableEq, Repr

/-- Images by the key of their source. -/
abbrev Store := List StoreEntry

namespace Store

/-- The key under which the image of a source is kept. -/
def key (source : Text) : Text := Text.hex (Sha256.digest source)

/-- The image under a key. -/
def get? (s : Store) (key : Text) : Option Text := (s.find? (·.key == key)).map StoreEntry.image

/-- Removes what is under a key. -/
def erase (s : Store) (key : Text) : Store := s.filter fun entry => entry.key != key

/-- Keeps an image in place of the one under the same key. -/
def put (s : Store) (entry : StoreEntry) : Store := s.erase entry.key ++ [entry]

/-- The length of all images together. -/
def bytes : Store → Nat
  | [] => 0
  | entry :: rest => entry.image.length + bytes rest

end Store

/-- The file that a cache is kept in. -/
structure CacheFile where
  path : Text
  /-- Changes are kept in a log before they reach the file. -/
  isLogged : Bool
  deriving DecidableEq, Repr

/-- A cache and its activity since it was opened. -/
structure Cache where
  /-- The path that the cache was opened by. -/
  path : Text
  /-- The file that the images are kept in, if there is one. -/
  file? : Option CacheFile
  /-- The images. They outlast the use of the cache. -/
  store : Store
  isWritable : Bool
  isOpen : Bool
  /-- The number of times an image was found. -/
  hits : Nat
  misses : Nat
  deriving DecidableEq, Repr

/-- Why the cache could not do what it was asked for. -/
inductive CacheError
  /-- The chunk cannot be kept. -/
  | encoding (error : ImageError)
  /-- The cache was closed before. -/
  | closed (activity : Text)
  | readOnly (activity : Text)
  deriving DecidableEq, Repr

namespace CacheError

/-- The text of an error. -/
def message : CacheError → Text
  | encoding e => "encoding chunk: " ++ e.message
  | closed activity => activity ++ ": sql: database is closed"
  | readOnly activity => activity ++ ": attempt to write a readonly database (8)"

end CacheError

/-- What a cache holds and has done. -/
structure CacheStats where
  entries : Nat
  bytes : Nat
  /-- The number of times an image was found. -/
  hits : Nat
  misses : Nat
  deriving DecidableEq, Repr

namespace Cache

/-- A cache with the images at a path, which are kept in no file. -/
def openAt (path : Text) (store : Store) : Cache := ⟨path, none, store, true, true, 0, 0⟩

/-- Changes the images, if that is possible. -/
def alter (c : Cache) (activity : Text) (f : Store → Store) : Except CacheError Unit × Cache :=
  if !c.isOpen then (.error (.closed activity), c)
  else if !c.isWritable then (.error (.readOnly activity), c)
  else (.ok (), { c with store := f c.store })

/-- Counts a program that was found. -/
def hit (c : Cache) : Cache := { c with hits := c.hits + 1 }

/-- Counts a program that was not found. -/
def miss (c : Cache) : Cache := { c with misses := c.misses + 1 }

/-- The chunk that an image holds for a source, if it was made from this source and can be used. -/
def usable? [Cbor.Codec] [Uuid.Scheme] (source image : Text) : Option Chunk :=
  match Image.decode image with
  | .ok (chunk, header) => if header.sourceHash = Sha256.digest source then some chunk else none
  | .error _ => none

/-- The chunk of a source, if it is in the cache. -/
def get [Cbor.Codec] [Uuid.Scheme] (c : Cache) (source : Text) : Except CacheError (Option Chunk) × Cache :=
  if !c.isOpen then (.error (.closed "querying chunk"), c)
  else match c.store.get? (Store.key source) with
    | none => (.ok none, c.miss)
    | some image =>
      match usable? source image with
      | some chunk => (.ok (some chunk), c.hit)
      | none =>
        match c.alter "deleting chunk" fun s => s.erase (Store.key source) with
        | (.ok _, c') => (.ok none, c'.miss)
        | (.error e, c') => (.error e, c')

/-- Keeps bytes as the image of a source, whatever they are. -/
def overwrite (c : Cache) (source image : Text) : Cache :=
  { c with store := c.store.put ⟨Store.key source, [], image⟩ }

/-- Keeps the image of a chunk in place of an earlier one of its source. -/
def put [Cbor.Codec] (c : Cache) (source : Text) (chunk : Chunk) (stamp : ImageStamp) :
    Except CacheError Unit × Cache :=
  match Image.encode chunk source stamp with
  | .error e => (.error (.encoding e), c)
  | .ok (image, header) =>
    c.alter "saving chunk" fun s => s.put ⟨Store.key source, header.id, image⟩

/-- Removes all images. -/
def clear (c : Cache) : Except CacheError Unit × Cache := c.alter "clearing cache" fun _ => []

/-- Closes the cache. What it stores stays. -/
def close (c : Cache) : Cache := { c with isOpen := false }

/-- Opens the cache again, with its counts at zero. -/
def reopen (c : Cache) : Cache := { c with isOpen := true, hits := 0, misses := 0 }

/-- How much the cache stores, and how often it was of use. -/
def stats (c : Cache) : Except CacheError CacheStats :=
  if c.isOpen then .ok ⟨c.store.length, c.store.bytes, c.hits, c.misses⟩
  else .error (.closed "querying stats")

/-- A line about what the cache holds and has done. -/
def summary (c : Cache) : Except CacheError Text :=
  c.stats.map fun s =>
    "cache " ++ c.path ++ ": " ++ Text.count s.entries ++ " entries, " ++ Text.size s.bytes ++ ", "
      ++ Text.decimal s.hits ++ " hits, " ++ Text.decimal s.misses ++ " misses"

/-- Builds a source, or takes its code from the cache. A failure of the cache is no failure of the
    build. -/
def build [Cbor.Codec] [Uuid.Scheme] (c : Cache) (source : Text) (stamp : ImageStamp) :
    Except BuildFailure Program × Cache :=
  match Checked.ofSource source with
  | .error f => (.error f, c)
  | .ok checked =>
    match c.get source with
    | (.ok (some chunk), c') => (.ok ⟨checked, chunk⟩, c')
    | (_, c') =>
      match Program.ofExpr checked.expr with
      | .error f => (.error f, c')
      | .ok program => (.ok program, (c'.put source program.chunk stamp).2)

end Cache

end PicoLang

import NixStore.Handle

/-!
# Settings

What its users can change about a handle, as data, so that something can be said of every way to
change it.
-/

namespace NixStore

/-- A change of how a handle sends archives. -/
inductive Setting where
  | chunkSize (n : Nat)
  | channelCapacity (n : Nat)

namespace Handle

variable {m : Type → Type}

def set (h : Handle m) : Setting → Handle m
  | .chunkSize n => h.withChunkSize n
  | .channelCapacity n => h.withChannelCapacity n

/-- Makes some changes, the first one first. -/
def adjust (h : Handle m) (settings : List Setting) : Handle m := settings.foldl set h

end Handle

end NixStore

import NixStore.Archive.Dump
import NixStore.Proofs.Archive.Decoding
import NixStore.Proofs.FileTree.Changes

/-!
# Trees that change

Others may change a tree between any two looks at it, so what was seen of an entry tells nothing
about what is seen of it next. Each answer by itself is that of some tree: a directory's names are
different, and lengths fit into eight bytes, as those of all files do. That is enough for a writer
of an archive, and it is all that is told here of the host that it runs on.
-/

namespace NixStore

namespace FileNode

variable {disk : FileNode} {path : Bytes}

/-- The lengths of contents, targets and names fit into eight bytes. -/
def LengthsFit : FileNode → Prop
  | file data _ => data.length < Archive.sizeLimit
  | directory entries => ∀ e ∈ entries, e.1.length < Archive.sizeLimit
  | link target => target.length < Archive.sizeLimit
  | fifo | socket => True

/-- All lengths in a tree fit into eight bytes. -/
def Bounded (node : FileNode) : Prop := Everywhere LengthsFit node

theorem LengthsFit.size_lt {node : FileNode} (h : node.LengthsFit) :
    node.status.size < Archive.sizeLimit := by
  cases node with
  | file | link => exact h
  | directory => exact (by decide : 4096 < Archive.sizeLimit)
  | fifo | socket => exact (by decide : 0 < Archive.sizeLimit)

theorem exists_entry {α : Type} {followLast : Bool} {f : FileNode → Except OsError α} {a : α}
    (h : disk.entry followLast path >>= f = .ok a) :
    ∃ node, disk.entry followLast path = .ok node ∧ f node = .ok a := by
  cases hentry : disk.entry followLast path with
  | error e =>
    rw [hentry] at h
    cases h
  | ok node =>
    rw [hentry] at h
    exact ⟨node, rfl, h⟩

theorem Bounded.size_lt (h : disk.Bounded) {kind : FileKind} {status : FileStatus}
    (hin : disk.inspect path = .ok (kind, status)) : status.size < Archive.sizeLimit := by
  obtain ⟨node, hentry, hnode⟩ := exists_entry hin
  cases hnode
  exact (h.entry hentry).here.size_lt

theorem Bounded.target_lt (h : disk.Bounded) {target : Bytes}
    (hlink : disk.linkTarget path = .ok target) : target.length < Archive.sizeLimit := by
  obtain ⟨node, hentry, hnode⟩ := exists_entry hlink
  cases node with
  | link target =>
    cases hnode
    exact (h.entry hentry).here
  | _ => cases hnode

/-- In a listing of a directory that was put in order the names increase, and are not too long. -/
theorem names_of_list (hbounded : disk.Bounded) (hdistinct : disk.Distinct)
    {entries : List (Bytes × FileKind)} (hlist : disk.listNames path = .ok entries) :
    ((Archive.sortEntries entries).map (·.1)).Pairwise (· < ·) ∧
      ∀ e ∈ Archive.sortEntries entries, e.1.length < Archive.sizeLimit := by
  obtain ⟨node, hentry, hnode⟩ := exists_entry hlist
  cases node with
  | directory nodes =>
    cases hnode
    have hfit : ∀ e ∈ nodes.map fun e ↦ (e.1, e.2.kind), e.1.length < Archive.sizeLimit :=
      List.forall_mem_map.2 (hbounded.entry hentry).here
    refine ⟨Archive.pairwise_sortEntries ?_, fun e he ↦ hfit e (Archive.mem_sortEntries.1 he)⟩
    rw [List.map_map]
    exact (hdistinct.entry hentry).here
  | _ => cases hnode

end FileNode

/-! ## Trees that others change -/

variable {σ η : Type}

/-- What is seen of a tree that others change, and of the sink of its archive. -/
structure TreeView (σ : Type) where
  disk : σ → FileNode
  /-- The bytes that the sink has taken. -/
  taken : σ → Bytes
  /-- That all lengths fit, now and after the changes to come. -/
  fits : σ → Prop

namespace TreeView

variable {view : TreeView σ} {host : ArchiveHost (StateM σ) η}

/-- The sink has taken a piece, and others may have changed the tree. -/
structure Takes (view : TreeView σ) (s : σ) (piece : Bytes) (s' : σ) : Prop where
  fits : view.fits s'
  becomes : (view.disk s).Becomes (view.disk s')
  taken_eq : view.taken s' = view.taken s ++ piece

theorem Takes.refl {s : σ} (h : view.fits s) : view.Takes s [] s :=
  ⟨h, .refl _, (List.append_nil _).symm⟩

theorem Takes.trans {s s₁ s₂ : σ} {piece more : Bytes} (h : view.Takes s piece s₁)
    (h' : view.Takes s₁ more s₂) : view.Takes s (piece ++ more) s₂ :=
  ⟨h'.fits, h.becomes.trans h'.becomes, by rw [h'.taken_eq, h.taken_eq, List.append_assoc]⟩

/-- A look gives what some tree shows; others may change it before and after. -/
def Shows {α : Type} (view : TreeView σ) (look : StateM σ α) (answer : FileNode → α) : Prop :=
  ∀ s, view.fits s → ∃ s₁ s', look.run s = (answer (view.disk s₁), s') ∧
    view.Takes s [] s₁ ∧ view.Takes s₁ [] s'

/-- A host of a tree that others change between any two calls, and during each. A file that is open
may give anything, but no more than it is asked for. A sink takes the first of the bytes that it is
given, and fails if it does not take all of them. -/
structure Describes (view : TreeView σ) (host : ArchiveHost (StateM σ) η) : Prop where
  bounded : ∀ s, view.fits s → (view.disk s).Bounded
  inspect : ∀ path, view.Shows (host.inspect path) (·.inspect path)
  list : ∀ path, view.Shows (host.list path) (·.listNames path)
  readLink : ∀ path, view.Shows (host.readLink path) (·.linkTarget path)
  openFile : ∀ path s, view.fits s → ∃ r s', (host.openFile path).run s = (r, s') ∧
    view.Takes s [] s'
  read : ∀ file n s, view.fits s → ∃ r file' s', (host.read file n).run s = ((r, file'), s') ∧
    (∀ piece, r = .ok piece → piece.length ≤ n) ∧ view.Takes s [] s'
  write : ∀ data s, view.fits s → ∃ r s' piece, (host.write data).run s = (r, s') ∧
    view.Takes s piece s' ∧ piece <+: data ∧ (r = .ok () ↔ piece = data)

/-! ## Looks -/

open Archive

variable {α : Type}

/-- What holds of a state all along: lengths fit, and names are different. -/
structure Sound (view : TreeView σ) (s : σ) : Prop where
  fits : view.fits s
  distinct : (view.disk s).Distinct

theorem Takes.sound {s s' : σ} {piece : Bytes} (h : view.Takes s piece s') (hs : view.Sound s) :
    view.Sound s' :=
  ⟨h.fits, h.becomes.distinct hs.distinct⟩

/-- A look gives an answer with a property and writes nothing. -/
def Looks (view : TreeView σ) (look : StateM σ α) (holds : α → Prop) : Prop :=
  ∀ s, view.Sound s → ∃ a s', look.run s = (a, s') ∧ holds a ∧ view.Takes s [] s'

namespace Describes

variable (h : view.Describes host)
include h

theorem looks {look : StateM σ α} {answer : FileNode → α} {holds : α → Prop}
    (hshows : view.Shows look answer)
    (hanswer : ∀ disk : FileNode, disk.Bounded → disk.Distinct → holds (answer disk)) :
    view.Looks look holds := by
  intro s hs
  obtain ⟨s₁, s', hrun, hbefore, hafter⟩ := hshows s hs.fits
  have hs₁ := hbefore.sound hs
  exact ⟨_, s', hrun, hanswer _ (h.bounded s₁ hs₁.fits) hs₁.distinct, hbefore.trans hafter⟩

theorem looks_inspect (path : Bytes) : view.Looks (host.inspect path) fun r ↦
    ∀ kind status, r = .ok (kind, status) → status.size < sizeLimit :=
  h.looks (h.inspect path) fun _ hbounded _ _ _ heq ↦ hbounded.size_lt heq

theorem looks_readLink (path : Bytes) : view.Looks (host.readLink path) fun r ↦
    ∀ target, r = .ok target → target.length < sizeLimit :=
  h.looks (h.readLink path) fun _ hbounded _ _ heq ↦ hbounded.target_lt heq

theorem looks_list (path : Bytes) : view.Looks (host.list path) fun r ↦ ∀ entries, r = .ok entries →
    ((sortEntries entries).map (·.1)).Pairwise (· < ·) ∧
      ∀ e ∈ sortEntries entries, e.1.length < sizeLimit :=
  h.looks (h.list path) fun _ hbounded hdistinct _ heq ↦
    FileNode.names_of_list hbounded hdistinct heq

end Describes

end TreeView

end NixStore

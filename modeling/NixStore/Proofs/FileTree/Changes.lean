import NixStore.FileTree.Change
import NixStore.Proofs.FileTree.Lookup

/-!
# What changes keep

What holds of every entry of a tree holds of the entry that any path leads to, since a search only
ever goes from a directory to an entry in it, back, or to the root. A change alters one entry of
each directory on its way and leaves their names different, as long as what it puts in place is
such a tree itself.
-/

namespace NixStore

namespace FileNode

variable {holds : FileNode → Prop} {root node : FileNode} {name : Bytes}
  {entries : List (Bytes × FileNode)}

/-- Something holds of an entry and of all that is below it. -/
inductive Everywhere (holds : FileNode → Prop) : FileNode → Prop
  | intro {node : FileNode} (here : holds node)
      (below : ∀ entries, node = .directory entries → ∀ e ∈ entries, Everywhere holds e.2) :
      Everywhere holds node

theorem Everywhere.here (h : Everywhere holds node) : holds node := by
  cases h with
  | intro here _ => exact here

theorem everywhere_directory : Everywhere holds (.directory entries) ↔
    holds (.directory entries) ∧ ∀ e ∈ entries, Everywhere holds e.2 := by
  constructor
  · rintro ⟨here, below⟩
    exact ⟨here, below entries rfl⟩
  · rintro ⟨here, below⟩
    refine .intro here fun entries' heq ↦ ?_
    cases heq
    exact below

/-! ## Searches -/

theorem mem_of_find? (h : find? name entries = some node) : (name, node) ∈ entries := by
  induction entries with
  | nil => cases h
  | cons first rest ih =>
    obtain ⟨n, node'⟩ := first
    rw [find?] at h
    split at h
    · next heq =>
      cases h
      rw [heq]
      exact List.mem_cons_self
    · exact List.mem_cons_of_mem _ (ih h)

theorem Everywhere.trail (hroot : Everywhere holds root) {t : Trail}
    (h : ∀ e ∈ t, Everywhere holds e.2) : Everywhere holds (t.entry root) := by
  cases t with
  | nil => exact hroot
  | cons e t => exact h e List.mem_cons_self

theorem Everywhere.follow (hroot : Everywhere holds root) {followLast : Bool} {links : Nat}
    {trail t : Trail} {names : List Bytes} (htrail : ∀ e ∈ trail, Everywhere holds e.2)
    (h : follow root followLast links trail names = .ok t) : ∀ e ∈ t, Everywhere holds e.2 := by
  have hfound : ∀ {trail : Trail} {entries}, (∀ e ∈ trail, Everywhere holds e.2) →
      trail.entry root = .directory entries → ∀ {name node}, find? name entries = some node →
      ∀ e ∈ (name, node) :: trail, Everywhere holds e.2 := by
    intro trail entries htrail hdir name node hfind
    have hentries := hroot.trail htrail
    rw [hdir] at hentries
    exact List.forall_mem_cons.2
      ⟨(everywhere_directory.1 hentries).2 _ (mem_of_find? hfind), htrail⟩
  fun_induction NixStore.follow root followLast links trail names with
  | case1 links trail =>
    obtain rfl := Except.ok.inj h
    exact htrail
  | case2 links trail name rest entries hdir hstay ih => exact ih htrail h
  | case3 links trail rest entries hdir hstay ih =>
    exact ih (fun e he ↦ htrail e (List.mem_of_mem_tail he)) h
  | case4 | case5 | case6 | case10 => cases h
  | case7 trail name rest entries hdir hstay hup hlong target hfind hmiddle links start ih =>
    refine ih (fun e he ↦ ?_) h
    simp only [start] at he
    split at he
    · cases he
    · exact htrail e he
  | case8 links trail name rest entries hdir hstay hup hlong target hfind hlast =>
    obtain rfl := Except.ok.inj h
    exact hfound htrail hdir hfind
  | case9 links trail name rest entries hdir hstay hup hlong node hlink hfind ih =>
    exact ih (hfound htrail hdir hfind) h

/-- What holds everywhere in a tree holds everywhere in what a path leads to. -/
theorem Everywhere.entry (hroot : Everywhere holds root) {followLast : Bool} {path : Bytes}
    (h : root.entry followLast path = .ok node) : Everywhere holds node := by
  obtain ⟨t, hlook, rfl⟩ := entry_eq_ok_iff.1 h
  have hfollow := (lookUp_eq_ok_iff.1 hlook).2.2.2
  exact hroot.trail (hroot.follow (fun _ he ↦ absurd he List.not_mem_nil) hfollow)

/-! ## Names -/

/-- The names in a directory are different. -/
def NamesDiffer : FileNode → Prop
  | directory entries => (entries.map (·.1)).Nodup
  | _ => True

/-- The names in each directory are different. -/
def Distinct (node : FileNode) : Prop := Everywhere NamesDiffer node

theorem distinct_of_kind_ne (h : node.kind ≠ .directory) : node.Distinct := by
  cases node with
  | directory => exact absurd rfl h
  | _ => exact .intro trivial nofun

variable {f : Option FileNode → Option FileNode}

theorem mem_alterEntry {e : Bytes × FileNode} (he : e ∈ alterEntry name f entries) :
    e ∈ entries ∨ e.1 = name ∧ f (find? name entries) = some e.2 := by
  induction entries with
  | nil =>
    obtain ⟨node, hnode, rfl⟩ := List.mem_map.1 he
    exact .inr ⟨rfl, Option.mem_toList.1 hnode⟩
  | cons first rest ih =>
    obtain ⟨n, node⟩ := first
    rw [alterEntry] at he
    rw [find?]
    split at he
    · next heq =>
      rw [if_pos heq]
      rcases List.mem_append.1 he with he | he
      · obtain ⟨node', hnode', rfl⟩ := List.mem_map.1 he
        exact .inr ⟨rfl, Option.mem_toList.1 hnode'⟩
      · exact .inl (List.mem_cons_of_mem _ he)
    · next hne =>
      rw [if_neg hne]
      rcases List.mem_cons.1 he with rfl | he
      · exact .inl List.mem_cons_self
      · exact (ih he).imp_left (List.mem_cons_of_mem _)

theorem nodup_alterEntry (h : (entries.map (·.1)).Nodup) :
    ((alterEntry name f entries).map (·.1)).Nodup := by
  have hone : ∀ node? : Option FileNode, ((node?.toList.map (name, ·)).map (·.1)) = [] ∨
      ((node?.toList.map (name, ·)).map (·.1)) = [name] := by
    rintro (_ | node)
    · exact .inl rfl
    · exact .inr rfl
  induction entries with
  | nil =>
    rw [alterEntry]
    rcases hone (f none) with h | h <;> rw [h]
    · exact List.nodup_nil
    · exact List.pairwise_singleton _ _
  | cons first rest ih =>
    obtain ⟨n, node⟩ := first
    obtain ⟨hn, hrest⟩ := List.nodup_cons.1 h
    rw [alterEntry]
    split
    · next heq =>
      subst heq
      rw [List.map_append]
      rcases hone (f (some node)) with h | h <;> rw [h]
      · exact hrest
      · exact List.nodup_cons.2 ⟨hn, hrest⟩
    · next hne =>
      refine List.nodup_cons.2 ⟨fun hmem ↦ ?_, ih hrest⟩
      obtain ⟨e, he, heq⟩ := List.mem_map.1 hmem
      rcases mem_alterEntry he with he | ⟨hname, -⟩
      · exact hn (List.mem_map.2 ⟨e, he, heq⟩)
      · exact hne (heq.symm.trans hname)

/-- An alteration at a place keeps names different if what it makes of the entry there does. -/
theorem distinct_alterAt (hf : ∀ node?, (∀ node ∈ node?, node.Distinct) →
      ∀ node ∈ f node?, node.Distinct) (place : List Bytes) (node? : Option FileNode)
    (h : ∀ node ∈ node?, node.Distinct) : ∀ node ∈ alterAt f place node?, node.Distinct := by
  induction place generalizing node? with
  | nil =>
    rw [alterAt]
    exact hf node? h
  | cons name place ih =>
    rcases node? with _ | node
    · exact h
    cases node with
    | directory entries =>
      rintro node ⟨⟩
      obtain ⟨hnames, hentries⟩ := everywhere_directory.1 (h _ rfl)
      refine everywhere_directory.2 ⟨nodup_alterEntry hnames, fun e he ↦ ?_⟩
      rcases mem_alterEntry he with he | ⟨-, he⟩
      · exact hentries e he
      · exact ih _ (fun node hnode ↦ hentries _ (mem_of_find? hnode)) e.2 he
    | _ => exact h

end FileNode

namespace FileChange

/-- What a change puts in place has different names in each directory. -/
def Distinct : FileChange → Prop
  | put _ node => node.Distinct
  | _ => True

variable {root : FileNode} {c : FileChange}

theorem distinct_alterData (g : Bytes → Bytes) (node? : Option FileNode)
    (h : ∀ node ∈ node?, node.Distinct) :
    ∀ node ∈ FileNode.alterData g node?, node.Distinct := by
  rcases node? with _ | node
  · exact h
  cases node with
  | file data mode =>
    rintro node ⟨⟩
    exact FileNode.distinct_of_kind_ne nofun
  | _ => exact h

/-- How a change alters an entry does not depend on where the entry is. -/
theorem alteration_eq {α β : Type} {place : Except OsError α} {f g : β} {a : α}
    (h : (do return (← place, g) : Except OsError (α × β)) = .ok (a, f)) : f = g := by
  cases place with
  | error e => cases h
  | ok a' => exact (Prod.mk.inj (Except.ok.inj h)).2.symm

theorem distinct_of_resolve (hc : c.Distinct) {place : List Bytes}
    {f : Option FileNode → Option FileNode} (h : c.resolve root = .ok (place, f))
    (node? : Option FileNode) (hnode : ∀ node ∈ node?, node.Distinct) :
    ∀ node ∈ f node?, node.Distinct := by
  cases c with
  | put path node =>
    rw [alteration_eq h]
    rintro _ ⟨⟩
    exact hc
  | remove path =>
    rw [alteration_eq h]
    exact nofun
  | truncate path n =>
    rw [alteration_eq h]
    exact distinct_alterData _ node? hnode
  | append path data =>
    rw [alteration_eq h]
    exact distinct_alterData _ node? hnode

theorem distinct_apply (hc : c.Distinct) (h : root.Distinct) : (c.apply root).Distinct := by
  rw [apply]
  split
  · exact h
  · next place f hresolve =>
    have hall := FileNode.distinct_alterAt (distinct_of_resolve hc hresolve) place
      (some root) (by rintro node ⟨⟩; exact h)
    cases halter : FileNode.alterAt f place (some root) with
    | none => exact h
    | some node => exact hall node halter

end FileChange

/-- Others make some changes to a tree, which leave names different. -/
def FileNode.Becomes (before after : FileNode) : Prop :=
  ∃ changes : List FileChange, (∀ c ∈ changes, c.Distinct) ∧
    after = changes.foldl (fun disk c ↦ c.apply disk) before

namespace FileNode.Becomes

variable {a b c : FileNode}

theorem refl (a : FileNode) : a.Becomes a := ⟨[], fun _ h ↦ absurd h List.not_mem_nil, rfl⟩

theorem apply {change : FileChange} (h : change.Distinct) (a : FileNode) :
    a.Becomes (change.apply a) :=
  ⟨[change], List.forall_mem_singleton.2 h, rfl⟩

theorem trans (h : a.Becomes b) (h' : b.Becomes c) : a.Becomes c := by
  obtain ⟨changes, hchanges, rfl⟩ := h
  obtain ⟨changes', hchanges', rfl⟩ := h'
  refine ⟨changes ++ changes', fun c hc ↦ ?_, List.foldl_append.symm⟩
  exact (List.mem_append.1 hc).elim (hchanges c) (hchanges' c)

theorem distinct (h : a.Becomes b) (ha : a.Distinct) : b.Distinct := by
  obtain ⟨changes, hchanges, rfl⟩ := h
  induction changes generalizing a with
  | nil => exact ha
  | cons c changes ih =>
    obtain ⟨hc, hchanges⟩ := List.forall_mem_cons.1 hchanges
    exact ih (FileChange.distinct_apply hc ha) hchanges

end FileNode.Becomes

end NixStore

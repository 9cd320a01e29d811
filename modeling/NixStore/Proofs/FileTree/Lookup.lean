import NixStore.FileTree.Lookup

/-!
# Entries of a directory that was looked up

Whoever walks over a tree knows where a directory is and which names are in it, and looks up each
entry by a path of its own, from the root again. That path leads to the entry: names are followed
up to the directory as before, and a link at the end of the directory's path, which was followed
because of a slash behind it, is followed again because of the name behind it.
-/

namespace NixStore

def Trail.entry (root : FileNode) (t : Trail) : FileNode := (t.head?.map (·.2)).getD root

variable {root : FileNode}

/-- Following names and then more of them. The links that are still allowed then depend on the
names; that a link is followed at the end matters only if there is one. -/
theorem follow_append {links : Nat} {trail t : Trail} {names : List Bytes}
    (h : follow root false links trail names = .ok t) (ht : ∀ target, t.entry root ≠ .link target)
    (followLast : Bool) (more : List Bytes) :
    ∃ links', follow root followLast links trail (names ++ more)
      = follow root followLast links' t more := by
  fun_induction follow root false links trail names with
  | case1 links trail =>
    obtain rfl := Except.ok.inj h
    exact ⟨links, rfl⟩
  | case2 links trail name rest entries hdir hstay ih =>
    obtain ⟨links', hmore⟩ := ih h
    exact ⟨links', by rw [List.cons_append, follow, hdir]; simp only [if_pos hstay, hmore]⟩
  | case3 links trail rest entries hdir hstay ih =>
    obtain ⟨links', hmore⟩ := ih h
    refine ⟨links', ?_⟩
    rw [List.cons_append, follow, hdir]
    simpa using hmore
  | case4 | case5 | case6 | case10 => exact absurd h nofun
  | case7 trail name rest entries hdir hstay hup hlong target hfind hmiddle links start ih =>
    -- the link is not at the end of the path, so it is followed whatever `followLast` says
    obtain ⟨links', hmore⟩ := ih h
    have hrest : rest ++ more ≠ [] :=
      List.append_ne_nil_of_left_ne_nil (hmiddle.resolve_right nofun) more
    refine ⟨links', ?_⟩
    rw [List.cons_append, follow, hdir]
    simp only [if_neg hstay, if_neg hup, if_neg hlong, hfind, if_pos (Or.inl hrest)]
    rw [← List.append_assoc]
    exact hmore
  | case8 links trail name rest entries hdir hstay hup hlong target hfind hlast =>
    obtain rfl := Except.ok.inj h
    exact absurd rfl (ht target)
  | case9 links trail name rest entries hdir hstay hup hlong node hlink hfind ih =>
    obtain ⟨links', hmore⟩ := ih h
    refine ⟨links', ?_⟩
    rw [List.cons_append, follow, hdir]
    simp only [if_neg hstay, if_neg hup, if_neg hlong, hfind]
    exact hmore

/-- What follows some names may be replaced by what leads to the same from everywhere. -/
theorem follow_append_congr {followLast : Bool} {more more' : List Bytes} (hne : more ≠ [])
    (hne' : more' ≠ [])
    (h : ∀ links t, follow root followLast links t more = follow root followLast links t more')
    (links : Nat) (trail : Trail) (names : List Bytes) :
    follow root followLast links trail (names ++ more)
      = follow root followLast links trail (names ++ more') := by
  -- no link is the last one here, so the cases are those of a search that follows all links
  fun_induction follow root true links trail names with
  | case1 links trail => exact h links trail
  | case7 trail name rest entries hdir hstay hup hlong target hfind hmiddle links start ih =>
    rw [List.cons_append, List.cons_append, follow, follow, hdir]
    simp only [if_neg hstay, if_neg hup, if_neg hlong, hfind,
      if_pos (Or.inl (List.append_ne_nil_of_right_ne_nil rest hne)),
      if_pos (Or.inl (List.append_ne_nil_of_right_ne_nil rest hne'))]
    rw [← List.append_assoc, ← List.append_assoc]
    exact ih
  | case8 links trail name rest entries hdir hstay hup hlong target hfind hlast =>
    exact absurd (Or.inr rfl) hlast
  | _ => simp_all [follow]

theorem follow_nil_cons (followLast : Bool) (links : Nat) (t : Trail) (name : Bytes)
    (rest : List Bytes) :
    follow root followLast links t ([] :: name :: rest)
      = follow root followLast links t (name :: rest) := by
  rw [follow]
  cases hentry : (t.head?.map (·.2)).getD root with
  | directory entries => simp
  | _ => simp [follow, hentry]

/-- What the name of a directory's entry must be. -/
structure FilePath.IsEntryName (name : Bytes) : Prop where
  ne_nil : name ≠ []
  ne_dot : name ≠ [0x2E]
  ne_dots : name ≠ [0x2E, 0x2E]
  slash_not_mem : slash ∉ name
  zero_not_mem : 0 ∉ name
  length_le : name.length ≤ maxNameLength

instance (name : Bytes) : Decidable (FilePath.IsEntryName name) :=
  decidable_of_iff (name ≠ [] ∧ name ≠ [0x2E] ∧ name ≠ [0x2E, 0x2E] ∧ FilePath.slash ∉ name ∧
      0 ∉ name ∧ name.length ≤ FilePath.maxNameLength)
    ⟨fun ⟨h1, h2, h3, h4, h5, h6⟩ ↦ ⟨h1, h2, h3, h4, h5, h6⟩,
      fun ⟨h1, h2, h3, h4, h5, h6⟩ ↦ ⟨h1, h2, h3, h4, h5, h6⟩⟩

/-- The last name of a path leads to an entry of the directory that it stands behind. -/
theorem follow_entryName {t : Trail} {entries : List (Bytes × FileNode)} {name : Bytes}
    {node : FileNode} (ht : t.entry root = .directory entries)
    (hname : FilePath.IsEntryName name) (hfind : FileNode.find? name entries = some node)
    (links : Nat) : follow root false links t [name] = .ok ((name, node) :: t) := by
  rw [Trail.entry] at ht
  rw [follow, ht]
  simp only [if_neg (not_or.2 ⟨hname.ne_nil, hname.ne_dot⟩), if_neg hname.ne_dots,
    if_neg (Nat.not_lt.2 hname.length_le), hfind]
  cases node with
  | link target => rfl
  | _ => simp only [follow]

namespace FileNode

theorem lookUp_eq_ok_iff {followLast : Bool} {path : Bytes} {t : Trail} :
    root.lookUp followLast path = .ok t ↔
      0 ∉ path ∧ path ≠ [] ∧ path.length ≤ FilePath.maxLength ∧
        follow root followLast maxLinks [] (FilePath.names path) = .ok t := by
  rw [lookUp]
  by_cases hzero : 0 ∈ path
  · simp [hzero]
  by_cases hempty : path = []
  · simp [hempty]
  by_cases hlong : FilePath.maxLength < path.length
  · simp [hzero, hempty, hlong, Nat.not_le.2 hlong]
  · simp [hzero, hempty, hlong, Nat.not_lt.1 hlong]

theorem entry_eq_ok_iff {followLast : Bool} {path : Bytes} {node : FileNode} :
    root.entry followLast path = .ok node ↔
      ∃ t, root.lookUp followLast path = .ok t ∧ t.entry root = node := by
  rw [entry]
  cases root.lookUp followLast path with
  | error e => exact ⟨nofun, fun ⟨_, h, _⟩ ↦ nomatch h⟩
  | ok t =>
    constructor
    · intro h
      exact ⟨t, rfl, Except.ok.inj h⟩
    · rintro ⟨_, ⟨⟩, rfl⟩
      rfl

/-- Only for a link does it matter whether one at the end is followed. -/
theorem entry_true_of_entry_false {path : Bytes} {node : FileNode}
    (h : root.entry false path = .ok node) (hlink : ∀ target, node ≠ .link target) :
    root.entry true path = .ok node := by
  obtain ⟨t, hlook, rfl⟩ := entry_eq_ok_iff.1 h
  obtain ⟨hzero, hempty, hlong, hfollow⟩ := lookUp_eq_ok_iff.1 hlook
  obtain ⟨links, hsame⟩ := follow_append hfollow hlink true []
  refine entry_eq_ok_iff.2 ⟨t, lookUp_eq_ok_iff.2 ⟨hzero, hempty, hlong, ?_⟩, rfl⟩
  rw [← List.append_nil (FilePath.names path), hsame, follow]

/-- The entry under a name in a directory, by the path of the directory joined with the name. -/
theorem entry_join {path name : Bytes} {entries : List (Bytes × FileNode)} {node : FileNode}
    (h : root.entry false path = .ok (.directory entries)) (hname : FilePath.IsEntryName name)
    (hfind : find? name entries = some node)
    (hlong : (FilePath.join path name).length ≤ FilePath.maxLength) :
    root.entry false (FilePath.join path name) = .ok node := by
  obtain ⟨t, hlook, hentry⟩ := entry_eq_ok_iff.1 h
  obtain ⟨hzero, hempty, -, hfollow⟩ := lookUp_eq_ok_iff.1 hlook
  have hdir : ∀ target, t.entry root ≠ .link target := by rw [hentry]; exact nofun
  refine entry_eq_ok_iff.2 ⟨(name, node) :: t, lookUp_eq_ok_iff.2 ⟨?_, ?_, hlong, ?_⟩, rfl⟩
  · obtain ⟨front, hfront, hjoin⟩ := FilePath.join_eq hempty hname.slash_not_mem
    have hslash : (0 : UInt8) ≠ FilePath.slash := by decide
    rcases hfront with rfl | rfl <;> simp_all [hname.zero_not_mem]
  · have := FilePath.length_lt_length_join hempty hname.slash_not_mem hname.ne_nil
    exact List.ne_nil_of_length_pos (Nat.zero_lt_of_lt this)
  · obtain ⟨ns, hns, hjoin⟩ := FilePath.names_join hempty hname.slash_not_mem
    obtain ⟨links, hmore⟩ := follow_append hfollow hdir false [name]
    rw [hjoin, ← follow_entryName hentry hname hfind links, ← hmore]
    rcases hns with hns | hns
    · rw [hns]
    · -- the empty name behind the last slash of the directory's path is left out
      rw [hns, List.append_assoc]
      exact follow_append_congr (by simp) (by simp)
        (fun links t ↦ (follow_nil_cons false links t name []).symm) maxLinks [] ns

end FileNode

end NixStore

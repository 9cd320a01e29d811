import NixStore.FileTree.Sighting
import NixStore.Proofs.FileTree.Changes

/-!
# Places that changes leave alone

A change alters the entry at one place. Whatever stands at a place that is not below that one is the
same afterwards, except that a directory may have got other entries; and if only the data of files
is altered, every place keeps the kind of its entry. Searches and alterations take the same steps
from a directory to an entry in it, so both are told by the names that lead to a place.
-/

namespace NixStore

open FileNode

/-! ## Places of trails -/

namespace FileNode

theorem at?_append (place more : List Bytes) (root : FileNode) :
    at? (place ++ more) root = (at? place root).bind (at? more) := by
  induction place generalizing root with
  | nil => rfl
  | cons name place ih =>
    cases root with
    | directory entries =>
      rw [List.cons_append, at?, at?, Option.bind_assoc]
      exact congrArg _ (funext ih)
    | _ => rfl

end FileNode

/-- Each entry of a trail is in the directory before it. -/
inductive Trail.Leads (root : FileNode) : Trail → Prop
  | nil : Leads root []
  | cons {t : Trail} {entries : List (Bytes × FileNode)} {name : Bytes} {node : FileNode}
      (h : Leads root t) (hdir : t.entry root = .directory entries)
      (hfind : find? name entries = some node) : Leads root ((name, node) :: t)

namespace Trail.Leads

variable {root : FileNode} {t : Trail}

theorem tail (h : Leads root t) : Leads root t.tail := by
  cases h with
  | nil => exact .nil
  | cons h _ _ => exact h

theorem at?_place (h : Leads root t) : root.at? t.place = some (t.entry root) := by
  induction h with
  | nil => rfl
  | @cons t entries name node h hdir hfind ih =>
    have hplace : Trail.place ((name, node) :: t) = t.place ++ [name] := by
      rw [Trail.place, List.map_cons, List.reverse_cons, Trail.place]
    rw [hplace, at?_append, ih, hdir, Option.bind_some, at?, hfind]
    rfl

theorem follow (htrail : Leads root t) {followLast : Bool} {links : Nat} {names : List Bytes}
    {found : Trail} (h : follow root followLast links t names = .ok found) : Leads root found := by
  fun_induction NixStore.follow root followLast links t names with
  | case1 links trail =>
    obtain rfl := Except.ok.inj h
    exact htrail
  | case2 links trail name rest entries hdir hstay ih => exact ih htrail h
  | case3 links trail rest entries hdir hstay ih => exact ih htrail.tail h
  | case4 | case5 | case6 | case10 => cases h
  | case7 trail name rest entries hdir hstay hup hlong target hfind hmiddle links start ih =>
    refine ih ?_ h
    simp only [start]
    split
    · exact .nil
    · exact htrail
  | case8 links trail name rest entries hdir hstay hup hlong target hfind hlast =>
    obtain rfl := Except.ok.inj h
    exact .cons htrail hdir hfind
  | case9 links trail name rest entries hdir hstay hup hlong node hlink hfind ih =>
    exact ih (.cons htrail hdir hfind) h

theorem of_lookUp {followLast : Bool} {path : Bytes} {found : Trail}
    (h : root.lookUp followLast path = .ok found) : Leads root found :=
  nil.follow (lookUp_eq_ok_iff.1 h).2.2.2

end Trail.Leads

namespace FileNode

variable {root : FileNode} {path : Bytes} {t : Trail}

variable {name n : Bytes} {f : Option FileNode → Option FileNode}
  {entries : List (Bytes × FileNode)} {node : FileNode} {place q : List Bytes}

theorem find?_alterEntry_of_ne (h : n ≠ name) :
    find? n (alterEntry name f entries) = find? n entries := by
  have hone : ∀ (node? : Option FileNode) (rest : List (Bytes × FileNode)),
      find? n (node?.toList.map (name, ·) ++ rest) = find? n rest := by
    rintro (_ | node) rest
    · rfl
    · exact if_neg (Ne.symm h)
  induction entries with
  | nil =>
    rw [alterEntry, ← List.append_nil (List.map _ _), hone]
  | cons first rest ih =>
    obtain ⟨n', node⟩ := first
    rw [alterEntry]
    split
    · next heq => rw [hone, find?, if_neg (heq ▸ Ne.symm h)]
    · rw [find?, find?, ih]

theorem find?_alterEntry (h : ∀ node, f (some node) ≠ none) :
    find? name (alterEntry name f entries) = f (find? name entries) := by
  induction entries with
  | nil =>
    rw [alterEntry, find?]
    cases f none with
    | none => rfl
    | some node => exact if_pos rfl
  | cons first rest ih =>
    obtain ⟨n', node⟩ := first
    rw [alterEntry, find?]
    split
    · obtain ⟨node', hnode⟩ := Option.ne_none_iff_exists'.1 (h node)
      rw [hnode]
      exact if_pos rfl
    · next hne => rw [find?, if_neg hne, ih]

theorem alterAt_cons_ne_none (f : Option FileNode → Option FileNode) (place : List Bytes)
    (node : FileNode) : alterAt f (name :: place) (some node) ≠ none := by
  cases node <;> exact nofun

/-- Two entries are the same, or both are directories. -/
def Alike (a b : Option FileNode) : Prop :=
  a = b ∨ ∃ entries entries', a = some (directory entries) ∧ b = some (directory entries')

/-- At a place that is not below the one that is altered stands what stood there before. -/
theorem alike_alterAt (h : ¬place <+: q) :
    Alike ((alterAt f place (some node)).bind (at? q)) (at? q node) := by
  induction place generalizing q node with
  | nil => exact absurd List.nil_prefix h
  | cons name place ih =>
    cases node with
    | directory entries =>
      cases q with
      | nil => exact .inr ⟨_, _, rfl, rfl⟩
      | cons n q =>
        rw [alterAt, Option.bind_some, at?, at?]
        by_cases hn : n = name
        · subst hn
          have hrest : ¬place <+: q := fun hprefix ↦ h (List.cons_prefix_cons.2 ⟨rfl, hprefix⟩)
          obtain ⟨name', place, rfl⟩ : ∃ name' place', place = name' :: place' :=
            List.exists_cons_of_ne_nil fun hnil ↦ hrest (hnil ▸ List.nil_prefix)
          rw [find?_alterEntry (alterAt_cons_ne_none f place)]
          cases find? n entries with
          | none => exact .inl rfl
          | some child => exact ih hrest
        · rw [find?_alterEntry_of_ne hn]
          exact .inl rfl
    | _ => exact .inl rfl

theorem alterData_ne_none (g : Bytes → Bytes) (node : FileNode) :
    alterData g (some node) ≠ none := by
  cases node <;> exact nofun

theorem alterAt_alterData_ne_none (g : Bytes → Bytes) (place : List Bytes) (node : FileNode) :
    alterAt (alterData g) place (some node) ≠ none := by
  cases place with
  | nil => exact alterData_ne_none g node
  | cons name place => exact alterAt_cons_ne_none _ place node

theorem map_kind_alterAt_alterData (g : Bytes → Bytes) (place q : List Bytes) (node : FileNode) :
    ((alterAt (alterData g) place (some node)).bind (at? q)).map kind
      = (at? q node).map kind := by
  induction place generalizing q node with
  | nil =>
    cases node with
    | file data mode => cases q <;> rfl
    | _ => rfl
  | cons name place ih =>
    cases node with
    | directory entries =>
      cases q with
      | nil => rfl
      | cons n q =>
        rw [alterAt, Option.bind_some, at?, at?]
        by_cases hn : n = name
        · subst hn
          rw [find?_alterEntry (alterAt_alterData_ne_none g place)]
          cases find? n entries with
          | none => cases place <;> rfl
          | some child => exact ih q child
        · rw [find?_alterEntry_of_ne hn]
    | _ => rfl

end FileNode

/-! ## Changes -/

namespace FileChange

variable {c : FileChange} {disk : FileNode} {place q : List Bytes}
  {f : Option FileNode → Option FileNode}

theorem exists_alterData (h : c.resolve disk = .ok (place, f)) (hc : c.replaces = false) :
    ∃ g, f = alterData g := by
  cases c with
  | put | remove => cases hc
  | truncate path n => exact ⟨_, alteration_eq h⟩
  | append path data => exact ⟨_, alteration_eq h⟩

theorem at?_apply (h : c.resolve disk = .ok (place, f))
    (hsome : alterAt f place (some disk) ≠ none) (q : List Bytes) :
    (c.apply disk).at? q = (alterAt f place (some disk)).bind (at? q) := by
  obtain ⟨node, hnode⟩ := Option.ne_none_iff_exists'.1 hsome
  simp only [apply, h, hnode, Option.getD_some, Option.bind_some]

theorem not_prefix_of_displaces (h : c.resolve disk = .ok (place, f)) (hc : c.replaces = true)
    (hkeep : c.displaces q disk = false) : ¬place <+: q := by
  simp only [displaces, hc, Bool.true_and, h] at hkeep
  intro hprefix
  rw [List.isPrefixOf_iff_prefix.2 hprefix] at hkeep
  cases hkeep

/-- A change of entries leaves those that it does not displace, but for the entries below them. -/
theorem alike_apply (hc : c.replaces = true) (hkeep : c.displaces q disk = false) :
    Alike ((c.apply disk).at? q) (disk.at? q) := by
  cases h : c.resolve disk with
  | error e =>
    simp only [apply, h]
    exact .inl rfl
  | ok found =>
    obtain ⟨place, f⟩ := found
    have hprefix := not_prefix_of_displaces h hc hkeep
    obtain ⟨name, rest, rfl⟩ : ∃ name rest, place = name :: rest :=
      List.exists_cons_of_ne_nil fun hnil ↦ hprefix (hnil ▸ List.nil_prefix)
    rw [at?_apply h (alterAt_cons_ne_none f rest disk)]
    exact alike_alterAt hprefix

theorem map_kind_apply (hkeep : c.displaces q disk = false) :
    ((c.apply disk).at? q).map kind = (disk.at? q).map kind := by
  cases hc : c.replaces with
  | true =>
    rcases alike_apply hc hkeep with heq | ⟨entries, entries', hafter, hbefore⟩
    · rw [heq]
    · rw [hafter, hbefore]
      rfl
  | false =>
    cases h : c.resolve disk with
    | error e => simp only [apply, h]
    | ok found =>
      obtain ⟨place, f⟩ := found
      obtain ⟨g, rfl⟩ := exists_alterData h hc
      rw [at?_apply h (alterAt_alterData_ne_none g place disk)]
      exact map_kind_alterAt_alterData g place q disk

end FileChange

namespace FileNode

theorem map_kind_foldl_after (place : List Bytes) (sighting : Sighting)
    (changes : List FileChange) :
    ((changes.foldl (Sighting.after place) sighting).disk.at? place).map kind
      = (sighting.disk.at? place).map kind := by
  induction changes generalizing sighting with
  | nil => rfl
  | cons c changes ih =>
    rw [List.foldl_cons, ih, Sighting.after]
    split
    · cases hkeep : c.displaces place sighting.disk with
      | true => rfl
      | false => exact FileChange.map_kind_apply hkeep
    · rfl

theorem exists_file_of_lastSight {disk : FileNode} {place : List Bytes}
    {changes : List FileChange} {data : Bytes} {mode : Nat}
    (h : (disk.lastSight place changes).disk.at? place = some (.file data mode)) :
    ∃ data mode, disk.at? place = some (.file data mode) := by
  have hkind := map_kind_foldl_after place ⟨disk, true⟩ changes
  rw [← lastSight, h] at hkind
  obtain ⟨node, hnode, hfile⟩ := Option.map_eq_some_iff.1 hkind.symm
  cases node with
  | file data mode => exact ⟨data, mode, hnode⟩
  | _ => cases hfile

end FileNode

end NixStore

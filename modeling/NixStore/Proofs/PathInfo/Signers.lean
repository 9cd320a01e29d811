import NixStore.PathInfo.Basic

/-!
# Whose signatures a record has

The name of a key ends at the first colon of its signature, and a generation of it begins at the
last hyphen, if a number follows. Both cuts are told here by the text alone: a name is what stands
before a colon and has none itself, and a generation of a text is the text with a hyphen and a
number behind it. A text may have hyphens, numbers and generations anywhere before that, of which
none is taken away.

A key is a cache's if its name is a generation of the cache's name. If it is the cache's name itself
the key is found only if this name ends in no generation: of a cache that is called `mirror-2` only
the keys `mirror-2-1`, `mirror-2-2` and so on are found, and not the key `mirror-2`.
-/

namespace NixStore

/-! ## The name of a key -/

theorem keyName?_append {name : Text} (h : ':' ∉ name) (rest : Text) :
    keyName? (name ++ ':' :: rest) = some name := by
  have hbefore : ∀ c ∈ name, decide (c ≠ ':') = true := fun c hc ↦
    decide_eq_true fun hcolon ↦ h (hcolon ▸ hc)
  rw [keyName?, if_pos (List.mem_append_right _ List.mem_cons_self),
    List.takeWhile_append_of_pos hbefore, List.takeWhile_cons_of_neg (by decide), List.append_nil]

theorem keyName?_eq_some_iff {signature name : Text} :
    keyName? signature = some name ↔ ∃ rest, signature = name ++ ':' :: rest ∧ ':' ∉ name := by
  constructor
  · intro h
    by_cases hcolon : ':' ∈ signature
    · obtain ⟨before, rest, rfl, hbefore⟩ := List.eq_append_cons_of_mem hcolon
      obtain rfl : before = name := Option.some.inj ((keyName?_append hbefore rest).symm.trans h)
      exact ⟨rest, rfl, hbefore⟩
    · rw [keyName?, if_neg hcolon] at h
      cases h
  · rintro ⟨rest, rfl, hname⟩
    exact keyName?_append hname rest

/-! ## Generations -/

/-- A name is a generation of a text: the text with a hyphen and a number behind it. -/
def IsGenerationOf (name base : Text) : Prop :=
  ∃ number, number ≠ [] ∧ (∀ c ∈ number, c.isDigit = true) ∧ name = base ++ '-' :: number

/-- A name ends in a generation. -/
def HasGeneration (name : Text) : Prop := ∃ base, IsGenerationOf name base

theorem IsGenerationOf.withoutGeneration_eq {name base : Text} (h : IsGenerationOf name base) :
    withoutGeneration name = base := by
  obtain ⟨number, hne, hnumber, rfl⟩ := h
  have hdigits : ∀ c ∈ number.reverse, c.isDigit = true := fun c hc ↦
    hnumber c (List.mem_reverse.1 hc)
  have hreverse : (base ++ '-' :: number).reverse = number.reverse ++ '-' :: base.reverse := by
    rw [List.reverse_append, List.reverse_cons, List.append_assoc, List.singleton_append]
  have htake : (base ++ '-' :: number).reverse.takeWhile Char.isDigit = number.reverse := by
    rw [hreverse, List.takeWhile_append_of_pos hdigits, List.takeWhile_cons_of_neg (by decide),
      List.append_nil]
  have hdrop : (base ++ '-' :: number).reverse.dropWhile Char.isDigit = '-' :: base.reverse := by
    rw [hreverse, List.dropWhile_append_of_pos hdigits, List.dropWhile_cons_of_neg (by decide)]
  obtain ⟨last, others, hlast⟩ := List.exists_cons_of_ne_nil (mt List.reverse_eq_nil_iff.1 hne)
  simp only [withoutGeneration, htake, hdrop, hlast, List.reverse_reverse]

theorem withoutGeneration_cases (name : Text) :
    IsGenerationOf name (withoutGeneration name) ∨ withoutGeneration name = name := by
  simp only [withoutGeneration]
  split
  · next last others base hdigits hrest =>
    refine .inl ⟨(last :: others).reverse, by simp, fun c hc ↦ ?_, ?_⟩
    · rw [← hdigits, List.mem_reverse] at hc
      exact List.all_eq_true.1 List.all_takeWhile c hc
    · have hsplit := List.takeWhile_append_dropWhile (p := Char.isDigit) (l := name.reverse)
      rw [hdigits, hrest] at hsplit
      rw [← List.reverse_reverse name, ← hsplit]
      simp
  · exact .inr rfl

theorem withoutGeneration_eq_iff {name base : Text} :
    withoutGeneration name = base ↔
      IsGenerationOf name base ∨ (name = base ∧ ¬HasGeneration name) := by
  constructor
  · rintro rfl
    rcases withoutGeneration_cases name with h | hname
    · exact .inl h
    · by_cases hgeneration : HasGeneration name
      · obtain ⟨base, hbase⟩ := hgeneration
        rw [hbase.withoutGeneration_eq]
        exact .inl hbase
      · exact .inr ⟨hname.symm, hgeneration⟩
  · rintro (h | ⟨rfl, hnone⟩)
    · exact h.withoutGeneration_eq
    · exact (withoutGeneration_cases name).resolve_left fun h ↦ hnone ⟨_, h⟩

/-! ## Signatures -/

namespace PathInfo

theorem mem_signees_iff {info : PathInfo} {name : Text} :
    name ∈ info.signees ↔
      ∃ signature ∈ info.signatures, ∃ rest, signature = name ++ ':' :: rest ∧ ':' ∉ name := by
  simp only [signees, List.mem_filterMap, keyName?_eq_some_iff]

theorem isSignedBy_eq_true_iff {info : PathInfo} {caches : List Text} :
    info.isSignedBy caches = true ↔
      ∃ name ∈ info.signees, ∃ cache ∈ caches, withoutGeneration name = cache := by
  simp only [isSignedBy, List.any_eq_true, List.contains_iff_mem, exists_eq_right']

/-- **A record is signed by a cache if one of its keys is the cache's**: if the key's name is a
generation of the cache's name, or is this name and no generation. A record is signed by a signee of
its own if this is no generation, or if another of its signees is a generation of it. -/
theorem isSignedBy_iff_key_of_cache (info : PathInfo) (caches : List Text) :
    (info.isSignedBy caches = true ↔
      ∃ signature ∈ info.signatures, ∃ name rest, signature = name ++ ':' :: rest ∧ ':' ∉ name ∧
        ∃ cache ∈ caches, IsGenerationOf name cache ∨ (name = cache ∧ ¬HasGeneration name)) ∧
    ∀ signee ∈ info.signees, info.isSignedBy [signee] = true ↔
      ¬HasGeneration signee ∨ ∃ other ∈ info.signees, IsGenerationOf other signee := by
  constructor
  · simp only [isSignedBy_eq_true_iff, mem_signees_iff, withoutGeneration_eq_iff]
    constructor
    · rintro ⟨name, ⟨signature, hmem, rest, heq, hname⟩, hcache⟩
      exact ⟨signature, hmem, name, rest, heq, hname, hcache⟩
    · rintro ⟨signature, hmem, name, rest, heq, hname, hcache⟩
      exact ⟨name, ⟨signature, hmem, rest, heq, hname⟩, hcache⟩
  · intro signee hsignee
    simp only [isSignedBy_eq_true_iff, withoutGeneration_eq_iff, List.mem_singleton,
      exists_eq_left]
    constructor
    · rintro ⟨name, hname, hgeneration | ⟨rfl, hnone⟩⟩
      · exact .inr ⟨name, hname, hgeneration⟩
      · exact .inl hnone
    · rintro (hnone | ⟨other, hother, hgeneration⟩)
      · exact ⟨signee, hsignee, .inr ⟨rfl, hnone⟩⟩
      · exact ⟨other, hother, .inl hgeneration⟩

/-- The first of these keys is called like its cache in its first generation, the second one like
its cache, and neither is found under its own name. -/
theorem not_isSignedBy_own_signees :
    let info : PathInfo := ⟨default, [], none, none, [],
      [text "cache.nixos.org-1:AAAA", text "mirror-2:BBBB"], .epoch, false, none⟩
    info.signees = [text "cache.nixos.org-1", text "mirror-2"] ∧
      info.isSignedBy [text "cache.nixos.org-1"] = false ∧
      info.isSignedBy [text "mirror-2"] = false := by
  decide

end PathInfo

end NixStore

import NixStore.Proofs.StorePath.Parsing
import NixStore.StorePath.Positions

/-!
# The first rule that is broken

The parser takes bytes as characters and looks for characters that are not allowed; the rules are
about the bytes themselves, and a reader by positions stands between the two. It never asks for a
position that is not there, because the length is looked at first, and ends as the parser does. What
it refuses breaks a rule and none of those before it, and what it does not refuse is grammatical.
-/

namespace NixStore

/-! ## Positions in texts -/

namespace Text

theorem cutAt?_append (t u : Text) : cutAt? (utf8 t).length (t ++ u) = some (t, u) := by
  induction t with
  | nil => simp only [utf8, List.flatMap_nil, List.length_nil, List.nil_append, cutAt?]
  | cons c t ih =>
    have hlength : (utf8 (c :: t)).length
        = (String.utf8EncodeChar c).length + (utf8 t).length := by
      rw [utf8, List.flatMap_cons, List.length_append, utf8]
    obtain ⟨n, hn⟩ : ∃ n, (utf8 (c :: t)).length = n + 1 :=
      Nat.exists_eq_succ_of_ne_zero (by
        rw [hlength, String.length_utf8EncodeChar]
        have := c.utf8Size_pos
        omega)
    have hrest : n + 1 - (String.utf8EncodeChar c).length = (utf8 t).length := by
      rw [← hn, hlength, Nat.add_sub_cancel_left]
    rw [hn, List.cons_append, cutAt?, if_pos (by omega), hrest, ih]
    rfl

end Text

namespace StorePath

open Text (firstFailing)

/-! ## Bytes as characters -/

/-- A byte is one of those of an ASCII text exactly if its character is in the text. -/
theorem mem_latin1_iff {t : Text} (ht : ∀ c ∈ t, c.toNat < 128) (b : UInt8) :
    b ∈ Text.latin1 t ↔ Char.ofNat b.toNat ∈ t := by
  constructor
  · intro hb
    rw [← Text.ofLatin1_latin1 ht]
    exact List.mem_map.2 ⟨b, hb, rfl⟩
  · intro hc
    have hbyte : Text.latin1 (Text.ofLatin1 [b]) = [b] := Text.latin1_ofLatin1 [b]
    exact List.mem_map.2 ⟨_, hc, List.singleton_inj.1 hbyte⟩

theorem isDigit_ofNat_iff (b : UInt8) : Base32.isDigit (Char.ofNat b.toNat) ↔ b ∈ digitBytes := by
  rw [Base32.isDigit_iff, digitBytes, mem_latin1_iff]
  exact fun c hc ↦ toNat_lt_of_isDigit (Base32.isDigit_iff.2 hc)

theorem isNameCharacter_iff {c : Char} : isNameCharacter c ↔ c ∈ nameAlphabet := by
  have hall : (nameAlphabet.all isNameCharacter) = true := by decide
  have hascii : ∀ n < 128,
      isNameCharacter (Char.ofNat n) = nameAlphabet.contains (Char.ofNat n) := by
    decide +kernel
  refine ⟨fun h ↦ ?_, List.all_eq_true.1 hall c⟩
  have hcontains := hascii _ (toNat_lt_of_isNameCharacter h)
  rw [Char.ofNat_toNat] at hcontains
  exact List.contains_iff_mem.1 (hcontains ▸ h)

theorem isNameCharacter_ofNat_iff (b : UInt8) :
    isNameCharacter (Char.ofNat b.toNat) ↔ b ∈ nameBytes := by
  rw [isNameCharacter_iff, nameBytes, mem_latin1_iff]
  exact fun c hc ↦ toNat_lt_of_isNameCharacter (isNameCharacter_iff.2 hc)

theorem ofLatin1_injective {bs cs : Bytes} (h : Text.ofLatin1 bs = Text.ofLatin1 cs) : bs = cs := by
  rw [← Text.latin1_ofLatin1 bs, h, Text.latin1_ofLatin1]

theorem ofLatin1_prefix_iff {bs cs : Bytes} :
    Text.ofLatin1 bs <+: Text.ofLatin1 cs ↔ bs <+: cs := by
  refine ⟨fun h ↦ ?_, fun h ↦ h.map _⟩
  have hmap := h.map fun c ↦ c.toNat.toUInt8
  rwa [← Text.latin1, ← Text.latin1, Text.latin1_ofLatin1, Text.latin1_ofLatin1] at hmap

theorem isReservedName_iff (name : Bytes) :
    isReservedName (Text.ofLatin1 name) ↔ Reserved name := by
  have hdot : NixStore.text "." = Text.ofLatin1 [dot] := rfl
  have hdots : NixStore.text ".." = Text.ofLatin1 [dot, dot] := rfl
  have hdotHyphen : NixStore.text ".-" = Text.ofLatin1 [dot, hyphen] := rfl
  have hdotsHyphen : NixStore.text "..-" = Text.ofLatin1 [dot, dot, hyphen] := rfl
  have heq : ∀ bs, Text.ofLatin1 name = Text.ofLatin1 bs ↔ name = bs := fun bs ↦
    ⟨ofLatin1_injective, congrArg _⟩
  rw [isReservedName, hdot, hdots, hdotHyphen, hdotsHyphen, Reserved]
  simp only [Bool.or_eq_true, decide_eq_true_eq, List.isPrefixOf_iff_prefix, heq,
    ofLatin1_prefix_iff, or_assoc]

/-! ## Single bytes -/

variable {allowed part bs hash name : Bytes} {start i : Nat} {b separator : UInt8}

theorem FirstOutside.unique {j : Nat} {c : UInt8} (h : FirstOutside allowed bs start i b)
    (h' : FirstOutside allowed bs start j c) : i = j ∧ b = c := by
  have hij : ¬i < j := fun hlt ↦ h.not_mem (h'.mem_of_lt i h.start_le hlt b h.getElem?_eq)
  have hji : ¬j < i := fun hlt ↦ h'.not_mem (h.mem_of_lt j h'.start_le hlt c h'.getElem?_eq)
  obtain rfl : i = j := by omega
  exact ⟨rfl, Option.some.inj (h.getElem?_eq.symm.trans h'.getElem?_eq)⟩

theorem FirstOutside.shift (h : FirstOutside allowed part 0 i b) (front back : Bytes) :
    FirstOutside allowed (front ++ (part ++ back)) front.length (front.length + i) b := by
  have hget : ∀ j c, part[j]? = some c → (front ++ (part ++ back))[front.length + j]? = some c := by
    intro j c hc
    obtain ⟨hj, -⟩ := List.getElem?_eq_some_iff.1 hc
    rw [List.getElem?_append_right (Nat.le_add_right _ _), Nat.add_sub_cancel_left,
      List.getElem?_append_left hj, hc]
  obtain ⟨hi, -⟩ := List.getElem?_eq_some_iff.1 h.getElem?_eq
  refine ⟨Nat.le_add_right _ _, hget i b h.getElem?_eq, h.not_mem, fun j hstart hj c hc ↦ ?_⟩
  obtain ⟨k, rfl⟩ := Nat.exists_eq_add_of_le hstart
  have hk : k < part.length := by omega
  have hpart := hget k part[k] (List.getElem?_eq_getElem hk)
  obtain rfl := Option.some.inj (hpart.symm.trans hc)
  exact h.mem_of_lt k (Nat.zero_le k) (by omega) _ (List.getElem?_eq_getElem hk)

theorem firstFailing_of_firstOutside {ok : Char → Bool}
    (hok : ∀ b : UInt8, ok (Char.ofNat b.toNat) ↔ b ∈ allowed) (offset : Nat)
    (h : FirstOutside allowed part 0 i b) :
    firstFailing ok offset (Text.ofLatin1 part) = some (offset + i, Char.ofNat b.toNat) := by
  induction part generalizing offset i with
  | nil => cases h.getElem?_eq
  | cons c part ih =>
    rw [Text.ofLatin1, List.map_cons, firstFailing, ← Text.ofLatin1]
    cases i with
    | zero =>
      obtain rfl := Option.some.inj h.getElem?_eq
      rw [if_neg (mt (hok _).1 h.not_mem), Nat.add_zero]
    | succ i =>
      have hc := h.mem_of_lt 0 (Nat.le_refl 0) (Nat.succ_pos i) c rfl
      have hrest : FirstOutside allowed part 0 i b :=
        ⟨Nat.zero_le i, h.getElem?_eq, h.not_mem, fun j _ hj d hd ↦
          h.mem_of_lt (j + 1) (Nat.zero_le _) (Nat.succ_lt_succ hj) d hd⟩
      rw [if_pos ((hok c).2 hc), ih (offset + 1) hrest, Nat.add_right_comm, Nat.add_assoc]

/-- All bytes of a part are allowed, or there is a first one that is not, which the reader and the
parser find. -/
theorem check_cases {ok : Char → Bool} (hok : ∀ b : UInt8, ok (Char.ofNat b.toNat) ↔ b ∈ allowed)
    (offset : Nat) (part : Bytes) (refuse : Nat → Char → StorePathError) :
    (∀ b ∈ part, b ∈ allowed) ∧ checkBytes allowed part refuse = pure () ∧
        firstFailing ok offset (Text.ofLatin1 part) = none ∨
      ∃ i b, FirstOutside allowed part 0 i b ∧
        checkBytes allowed part refuse = throw (refuse i (Char.ofNat b.toNat)) ∧
        firstFailing ok offset (Text.ofLatin1 part) = some (offset + i, Char.ofNat b.toNat) := by
  rw [checkBytes]
  cases hfind : part.findIdx? (· ∉ allowed) with
  | none =>
    have hall : ∀ b ∈ part, b ∈ allowed := fun b hb ↦ by
      simpa using List.findIdx?_eq_none_iff.1 hfind b hb
    refine .inl ⟨hall, rfl, Text.firstFailing_eq_none_iff.2 fun c hc ↦ ?_⟩
    obtain ⟨b, hb, rfl⟩ := List.mem_map.1 hc
    exact (hok b).2 (hall b hb)
  | some i =>
    obtain ⟨hi, hbad, hleast⟩ := List.findIdx?_eq_some_iff_getElem.1 hfind
    have hfirst : FirstOutside allowed part 0 i part[i] := by
      refine ⟨Nat.zero_le i, List.getElem?_eq_getElem hi, by simpa using hbad, ?_⟩
      intro j _ hj c hc
      obtain ⟨hlength, rfl⟩ := List.getElem?_eq_some_iff.1 hc
      simpa using hleast j hj
    refine .inr ⟨i, part[i], hfirst, ?_, firstFailing_of_firstOutside hok offset hfirst⟩
    simp only [List.getElem?_eq_getElem hi]
    rfl

/-! ## The parts of a path -/

theorem slice?_eq_some (front part back : Bytes) :
    slice? (front ++ (part ++ back)) front.length (front.length + part.length) = some part := by
  have hrange : front.length ≤ front.length + part.length ∧
      front.length + part.length ≤ (front ++ (part ++ back)).length := by
    simp only [List.length_append]
    omega
  rw [slice?, if_pos hrange, ← List.append_assoc, ← List.length_append, List.take_left,
    List.drop_left]

theorem exists_parts (h : hashPartLength + 2 ≤ bs.length) :
    ∃ hash separator name, bs = hash ++ separator :: name ∧ hash.length = hashPartLength ∧
      name ≠ [] := by
  refine ⟨bs.take hashPartLength, bs[hashPartLength], bs.drop (hashPartLength + 1), ?_, ?_, ?_⟩
  · rw [← List.drop_eq_getElem_cons, List.take_append_drop]
  · exact List.length_take_of_le (by omega)
  · exact List.ne_nil_of_length_pos (by rw [List.length_drop]; omega)

theorem readAt_parts (separator : UInt8) (hlength : hash.length = hashPartLength)
    (hname : name ≠ []) : readAt (hash ++ separator :: name) = (do
      checkBytes digitBytes hash .badDigit
      if separator ≠ hyphen then throw (.missingSeparator (Char.ofNat separator.toNat))
      else do
        checkName name
        return Text.ofLatin1 (hash ++ separator :: name)) := by
  have hlong : ¬(hash ++ separator :: name).length < hashPartLength + 2 := by
    have := List.length_pos_iff.2 hname
    rw [List.length_append, List.length_cons, hlength]
    omega
  have hhash : slice? (hash ++ separator :: name) 0 hashPartLength = some hash := by
    have := slice?_eq_some [] hash (separator :: name)
    rwa [List.length_nil, Nat.zero_add, hlength] at this
  have hseparator : (hash ++ separator :: name)[hashPartLength]? = some separator := by
    rw [List.getElem?_append_right (Nat.le_of_eq hlength), hlength, Nat.sub_self]
    rfl
  have hstop : (hash ++ separator :: name).length = hashPartLength + 1 + name.length := by
    rw [List.length_append, List.length_cons, hlength]
    omega
  have hrest : slice? (hash ++ separator :: name) (hashPartLength + 1)
      (hash ++ separator :: name).length = some name := by
    have := slice?_eq_some (hash ++ [separator]) name []
    rwa [List.append_nil, List.append_assoc, List.singleton_append, List.length_append, hlength,
      List.length_singleton, ← hstop] at this
  rw [readAt, if_neg hlong, hhash, hseparator, hrest]
  rfl

theorem ofText_parts {hash name : Text} {separator : Char} (hlength : hash.length = hashPartLength)
    (hname : name ≠ []) : ofText (hash ++ separator :: name)
      = (HashPart.ofDigits hash hlength).bind fun hashPart ↦
          if separator = '-' then
            (PathName.ofText (hashPartLength + 1) name hname).map (⟨hashPart, ·⟩)
          else .error (.missingSeparator separator) := by
  obtain ⟨c, rest, rfl⟩ := List.exists_cons_of_ne_nil hname
  have hdrop : (hash ++ separator :: c :: rest).drop hashPartLength = separator :: c :: rest :=
    List.drop_left' hlength
  have htake : (hash ++ separator :: c :: rest).take hashPartLength = hash :=
    List.take_left' hlength
  unfold ofText
  split
  · next separator' c' rest' h =>
    rw [hdrop] at h
    cases h
    simp only [htake]
    refine congrArg (Except.bind (HashPart.ofDigits hash hlength)) (funext fun hashPart ↦ ?_)
    by_cases hseparator : separator = '-'
    · rw [if_pos hseparator, if_neg (not_not_intro hseparator)]
      rfl
    · rw [if_neg hseparator, if_pos hseparator]
      rfl
  · next h => exact absurd hdrop (h _ _ _)

theorem ofBytes_parts (separator : UInt8) (hchars : (Text.ofLatin1 hash).length = hashPartLength)
    (hname : Text.ofLatin1 name ≠ []) : ofBytes (hash ++ separator :: name)
      = (HashPart.ofDigits (Text.ofLatin1 hash) hchars).bind fun hashPart ↦
          if separator = hyphen then
            (PathName.ofText (hashPartLength + 1) (Text.ofLatin1 name) hname).map (⟨hashPart, ·⟩)
          else .error (.missingSeparator (Char.ofNat separator.toNat)) := by
  have hbytes : ofBytes (hash ++ separator :: name)
      = ofText (Text.ofLatin1 hash ++ Char.ofNat separator.toNat :: Text.ofLatin1 name) :=
    congrArg ofText List.map_append
  have hseparator : Char.ofNat separator.toNat = '-' ↔ separator = hyphen := by
    refine ⟨fun h ↦ ?_, fun h ↦ h ▸ rfl⟩
    have hone : Text.ofLatin1 [separator] = Text.ofLatin1 [hyphen] := congrArg ([·]) h
    exact List.singleton_inj.1 (ofLatin1_injective hone)
  rw [hbytes, ofText_parts hchars hname]
  simp only [hseparator]

/-! ## Rules that are kept and rules that are broken -/

theorem Breaks.unique {rule : Rule} {e e' : StorePathError} (h : Breaks bs rule e)
    (h' : Breaks bs rule e') : e = e' := by
  cases h with
  | length | nameLength | nameReserved =>
    cases h'
    rfl
  | hashPart _ h =>
    cases h' with
    | hashPart _ h' =>
      obtain ⟨rfl, rfl⟩ := h.unique h'
      rfl
  | nameBytes h =>
    cases h' with
    | nameBytes h' =>
      obtain ⟨rfl, rfl⟩ := h.unique h'
      rfl
  | separator hb _ =>
    cases h' with
    | separator hb' _ =>
      obtain rfl := Option.some.inj (hb.symm.trans hb')
      rfl

theorem FirstBroken.unique {e e' : StorePathError} (h : FirstBroken bs e)
    (h' : FirstBroken bs e') : e = e' := by
  obtain ⟨earlier, rule, later, horder, hbreaks, hkeeps⟩ := h
  obtain ⟨earlier', rule', later', horder', hbreaks', hkeeps'⟩ := h'
  rcases List.append_eq_append_iff.1 (horder.symm.trans horder') with
    ⟨_ | ⟨r, between⟩, hbetween, hrest⟩ | ⟨_ | ⟨r, between⟩, hbetween, hrest⟩
  · cases hrest
    exact hbreaks.unique hbreaks'
  · cases hrest
    exact absurd hbreaks (hkeeps' rule (by simp [hbetween]) e)
  · cases hrest
    exact hbreaks.unique hbreaks'
  · cases hrest
    exact absurd hbreaks' (hkeeps rule' (by simp [hbetween]) e')

theorem keeps_length (h : hashPartLength + 2 ≤ bs.length) : Keeps bs .length := by
  intro e hbreaks
  cases hbreaks with
  | length hshort => exact Nat.not_lt.2 h hshort

section Parts

variable (hlength : hash.length = 32)
include hlength

theorem drop_parts : (hash ++ separator :: name).drop 33 = name := by
  rw [List.append_cons]
  exact List.drop_left' (by rw [List.length_append, hlength]; rfl)

theorem getElem?_parts : (hash ++ separator :: name)[32]? = some separator := by
  rw [List.getElem?_append_right (Nat.le_of_eq hlength), hlength]
  rfl

theorem keeps_hashPart (h : ∀ b ∈ hash, b ∈ digitBytes) :
    Keeps (hash ++ separator :: name) .hashPart := by
  intro e hbreaks
  cases hbreaks with
  | hashPart hi hfirst =>
    have hget := hfirst.getElem?_eq
    rw [List.getElem?_append_left (hlength ▸ hi)] at hget
    exact hfirst.not_mem (h _ (List.mem_of_getElem? hget))

theorem keeps_separator : Keeps (hash ++ hyphen :: name) .separator := by
  intro e hbreaks
  cases hbreaks with
  | separator hb hne =>
    rw [getElem?_parts hlength] at hb
    exact hne (Option.some.inj hb).symm

theorem keeps_nameLength (h : name.length ≤ 211) :
    Keeps (hash ++ separator :: name) .nameLength := by
  intro e hbreaks
  cases hbreaks with
  | nameLength hlong =>
    rw [drop_parts hlength] at hlong
    exact Nat.not_lt.2 h hlong

theorem keeps_nameBytes (h : ∀ b ∈ name, b ∈ nameBytes) :
    Keeps (hash ++ separator :: name) .nameBytes := by
  intro e hbreaks
  cases hbreaks with
  | nameBytes hfirst =>
    have hget := hfirst.getElem?_eq
    obtain ⟨j, rfl⟩ := Nat.exists_eq_add_of_le hfirst.start_le
    rw [← List.getElem?_drop, drop_parts hlength] at hget
    exact hfirst.not_mem (h _ (List.mem_of_getElem? hget))

theorem keeps_nameReserved (h : ¬Reserved name) :
    Keeps (hash ++ separator :: name) .nameReserved := by
  intro e hbreaks
  cases hbreaks with
  | nameReserved hreserved =>
    rw [drop_parts hlength] at hreserved
    exact h hreserved

end Parts

theorem Grammatical.keeps (h : Grammatical bs) (rule : Rule) : Keeps bs rule := by
  obtain ⟨hlength, hhash, hone, hle, hname, hreserved⟩ := h
  cases rule with
  | length =>
    refine keeps_length ?_
    rw [List.length_append, List.length_cons, hlength]
    exact Nat.add_le_add_left (Nat.succ_le_succ hone) 32
  | hashPart => exact keeps_hashPart hlength hhash
  | separator => exact keeps_separator hlength
  | nameLength => exact keeps_nameLength hlength hle
  | nameBytes => exact keeps_nameBytes hlength hname
  | nameReserved => exact keeps_nameReserved hlength hreserved

/-! ## The parser -/

/-- The parser and the reader by positions accept some bytes and keep them as they are, or refuse
them for the first rule that they break. -/
inductive Judged (bs : Bytes) : Prop
  | accepted (p : StorePath) (hparse : ofBytes bs = .ok p) (hread : readAt bs = pure p.text)
      (hgrammar : Grammatical bs)
  | refused (e : StorePathError) (hparse : ofBytes bs = .error e) (hread : readAt bs = throw e)
      (hfirst : FirstBroken bs e)

theorem ofName_cases {t : Text} (ht : t ≠ []) (hle : t.length ≤ maxNameLength) :
    (∃ i c, firstFailing isNameCharacter 33 t = some (i, c) ∧
        PathName.ofText 33 t ht = .error (.badNameCharacter i c)) ∨
      firstFailing isNameCharacter 33 t = none ∧
        (isReservedName t ∧ PathName.ofText 33 t ht = .error (.reservedName t) ∨
          ¬isReservedName t ∧ ∃ n, PathName.ofText 33 t ht = .ok n) := by
  rw [PathName.ofText, dif_pos hle]
  split
  · next i c h => exact .inl ⟨i, c, h, rfl⟩
  · next h =>
    refine .inr ⟨h, ?_⟩
    by_cases hreserved : isReservedName t
    · exact .inl ⟨hreserved, dif_neg (by simp [hreserved])⟩
    · exact .inr ⟨hreserved, _, dif_pos (by simpa using hreserved)⟩

theorem ofDigits_cases {t : Text} (ht : t.length = hashPartLength) :
    (firstFailing Base32.isDigit 0 t = none ∧ ∃ h, HashPart.ofDigits t ht = .ok h) ∨
      ∃ i c, firstFailing Base32.isDigit 0 t = some (i, c) ∧
        HashPart.ofDigits t ht = .error (.badDigit i c) := by
  rw [HashPart.ofDigits]
  split
  · next i c h => exact .inr ⟨i, c, h, rfl⟩
  · next h => exact .inl ⟨h, _, rfl⟩

theorem checkHash_cases (hlength : hash.length = 32)
    (hchars : (Text.ofLatin1 hash).length = hashPartLength)
    (hkeeps : Keeps (hash ++ separator :: name) .length) :
    ((∃ h, HashPart.ofDigits (Text.ofLatin1 hash) hchars = .ok h) ∧
        checkBytes digitBytes hash .badDigit = pure () ∧ ∀ b ∈ hash, b ∈ digitBytes) ∨
      ∃ e, HashPart.ofDigits (Text.ofLatin1 hash) hchars = .error e ∧
        checkBytes digitBytes hash .badDigit = throw e ∧
        FirstBroken (hash ++ separator :: name) e := by
  rcases check_cases isDigit_ofNat_iff 0 hash .badDigit with
    ⟨hdigits, hcheck, hnone⟩ | ⟨i, b, hfirst, hcheck, hsome⟩
  · rcases ofDigits_cases hchars with ⟨-, hparse⟩ | ⟨i, c, hfailing, -⟩
    · exact .inl ⟨hparse, hcheck, hdigits⟩
    · rw [hnone] at hfailing
      cases hfailing
  · rcases ofDigits_cases hchars with ⟨hnone, -⟩ | ⟨i', c, hfailing, hparse⟩
    · rw [hsome] at hnone
      cases hnone
    · rw [hsome, Nat.zero_add] at hfailing
      cases hfailing
      obtain ⟨hi, -⟩ := List.getElem?_eq_some_iff.1 hfirst.getElem?_eq
      have hshift := hfirst.shift [] (separator :: name)
      rw [List.nil_append, List.length_nil, Nat.zero_add] at hshift
      exact .inr ⟨_, hparse, hcheck, _, _, _, rfl, .hashPart (hlength ▸ hi) hshift,
        List.forall_mem_singleton.2 hkeeps⟩

theorem checkName_cases (hlength : hash.length = 32) (hname : Text.ofLatin1 name ≠ [])
    (hkeeps : ∀ r ∈ [Rule.length, .hashPart, .separator], Keeps (hash ++ separator :: name) r) :
    ((∃ n, PathName.ofText 33 (Text.ofLatin1 name) hname = .ok n) ∧ checkName name = pure () ∧
        name.length ≤ 211 ∧ (∀ b ∈ name, b ∈ nameBytes) ∧ ¬Reserved name) ∨
      ∃ e, PathName.ofText 33 (Text.ofLatin1 name) hname = .error e ∧ checkName name = throw e ∧
        FirstBroken (hash ++ separator :: name) e := by
  have hchars : (Text.ofLatin1 name).length = name.length := List.length_map _
  have hdrop : (hash ++ separator :: name).drop 33 = name := drop_parts hlength
  have hbefore : ∀ r, Keeps (hash ++ separator :: name) r → ∀ rs : List Rule,
      (∀ r' ∈ rs, Keeps (hash ++ separator :: name) r') →
      ∀ r' ∈ rs ++ [r], Keeps (hash ++ separator :: name) r' := fun r hr rs hrs ↦
    List.forall_mem_append.2 ⟨hrs, List.forall_mem_singleton.2 hr⟩
  rw [checkName]
  rcases Nat.lt_or_ge maxNameLength name.length with hlong | hle
  · have hbreaks : Breaks (hash ++ separator :: name) .nameLength (.nameTooLong name.length) := by
      have hpart : maxNameLength < ((hash ++ separator :: name).drop 33).length :=
        hdrop.symm ▸ hlong
      have hbreaks := Breaks.nameLength hpart
      rwa [hdrop] at hbreaks
    refine .inr ⟨.nameTooLong name.length, ?_, if_pos hlong, _, _, _, rfl, hbreaks, hkeeps⟩
    rw [PathName.ofText, dif_neg (hchars ▸ Nat.not_le.2 hlong), hchars]
  have hkeepsLength := hbefore .nameLength (keeps_nameLength hlength hle) _ hkeeps
  rw [if_neg (Nat.not_lt.2 hle)]
  rcases check_cases isNameCharacter_ofNat_iff 33 name
      (fun i c ↦ .badNameCharacter (hashPartLength + 1 + i) c) with
    ⟨hall, hcheck, hnone⟩ | ⟨i, b, hfirst, hcheck, hsome⟩
  · have hkeepsBytes := hbefore .nameBytes (keeps_nameBytes hlength hall) _ hkeepsLength
    rcases ofName_cases hname (hchars ▸ hle) with
      ⟨i, c, hfailing, -⟩ | ⟨-, ⟨hreserved, hparse⟩ | ⟨hreserved, hparse⟩⟩
    · rw [hnone] at hfailing
      cases hfailing
    · have hreserved := (isReservedName_iff name).1 hreserved
      have hbreaks : Breaks (hash ++ separator :: name) .nameReserved
          (.reservedName (Text.ofLatin1 name)) := by
        have hpart : Reserved ((hash ++ separator :: name).drop 33) := hdrop.symm ▸ hreserved
        have hbreaks := Breaks.nameReserved hpart
        rwa [hdrop] at hbreaks
      refine .inr ⟨_, hparse, ?_, _, _, _, rfl, hbreaks, hkeepsBytes⟩
      rw [hcheck, pure_bind, if_pos hreserved]
    · have hreserved := mt (isReservedName_iff name).2 hreserved
      refine .inl ⟨hparse, ?_, hle, hall, hreserved⟩
      rw [hcheck, pure_bind, if_neg hreserved]
  · rcases ofName_cases hname (hchars ▸ hle) with ⟨i', c, hfailing, hparse⟩ | ⟨hnone, -⟩
    · rw [hsome] at hfailing
      cases hfailing
      have hshift := hfirst.shift (hash ++ [separator]) []
      rw [List.append_nil, List.append_assoc, List.singleton_append, List.length_append,
        hlength] at hshift
      refine .inr ⟨_, hparse, ?_, _, _, _, rfl, .nameBytes hshift, hkeepsLength⟩
      rw [hcheck]
      rfl
    · rw [hsome] at hnone
      cases hnone

theorem judged_of_length_lt (h : bs.length < hashPartLength + 2) : Judged bs := by
  have hchars : (Text.ofLatin1 bs).length = bs.length := List.length_map _
  refine .refused (.tooShort bs.length) ?_ ?_ ⟨[], _, _, rfl, .length h, nofun⟩
  · rw [ofBytes]
    unfold ofText
    split
    · next separator c rest hdrop =>
      have := congrArg List.length hdrop
      simp only [List.length_drop, List.length_cons, hchars] at this
      omega
    · rw [hchars]
  · rw [readAt, if_pos h]

theorem judged_parts (hlength : hash.length = 32) (hname : name ≠ []) :
    Judged (hash ++ separator :: name) := by
  have hchars : (Text.ofLatin1 hash).length = hashPartLength := (List.length_map _).trans hlength
  have hname' : Text.ofLatin1 name ≠ [] := mt List.map_eq_nil_iff.1 hname
  have hparse := ofBytes_parts separator hchars hname'
  have hread := readAt_parts separator hlength hname
  have hone : 1 ≤ name.length := List.length_pos_iff.2 hname
  have hkeepsLength : Keeps (hash ++ separator :: name) .length := keeps_length <| by
    rw [List.length_append, List.length_cons, hlength]
    exact Nat.add_le_add_left (Nat.succ_le_succ hone) 32
  rcases checkHash_cases hlength hchars hkeepsLength with
    ⟨⟨hashPart, hhash⟩, hcheck, hdigits⟩ | ⟨e, hhash, hcheck, hfirst⟩
  · have hkeepsHash : ∀ r ∈ [Rule.length, .hashPart], Keeps (hash ++ separator :: name) r :=
      List.forall_mem_cons.2 ⟨hkeepsLength,
        List.forall_mem_singleton.2 (keeps_hashPart hlength hdigits)⟩
    rw [hhash] at hparse
    replace hparse : ofBytes (hash ++ separator :: name) = if separator = hyphen then
        (PathName.ofText 33 (Text.ofLatin1 name) hname').map (StorePath.mk hashPart)
      else .error (.missingSeparator (Char.ofNat separator.toNat)) := hparse
    rw [hcheck, pure_bind] at hread
    by_cases hseparator : separator = hyphen
    · subst hseparator
      rw [if_pos rfl] at hparse
      rw [if_neg (not_not_intro rfl)] at hread
      have hkeeps : ∀ r ∈ [Rule.length, .hashPart, .separator], Keeps (hash ++ hyphen :: name) r :=
        List.forall_mem_append.2 ⟨hkeepsHash,
          List.forall_mem_singleton.2 (keeps_separator hlength)⟩
      rcases checkName_cases hlength hname' hkeeps with
        ⟨⟨n, hn⟩, hcheck, hle, hnames, hreserved⟩ | ⟨e, hn, hcheck, hfirst⟩
      · have hp : ofBytes (hash ++ hyphen :: name) = .ok ⟨hashPart, n⟩ :=
          hparse.trans (congrArg (Except.map (StorePath.mk hashPart)) hn)
        refine .accepted ⟨hashPart, n⟩ hp ?_ (.intro hlength hdigits hone hle hnames hreserved)
        rw [hread, hcheck, ofText_eq_ok_iff.1 hp]
        rfl
      · have hp : ofBytes (hash ++ hyphen :: name) = .error e :=
          hparse.trans (congrArg (Except.map (StorePath.mk hashPart)) hn)
        refine .refused e hp ?_ hfirst
        rw [hread, hcheck]
        rfl
    · exact .refused _ (hparse.trans (if_neg hseparator)) (hread.trans (if_pos hseparator))
        ⟨_, _, _, rfl, .separator (getElem?_parts hlength) hseparator, hkeepsHash⟩
  · refine .refused e ?_ ?_ hfirst
    · rw [hparse, hhash]
      rfl
    · rw [hread, hcheck]
      rfl

theorem judged (bs : Bytes) : Judged bs := by
  rcases Nat.lt_or_ge bs.length (hashPartLength + 2) with hshort | hlong
  · exact judged_of_length_lt hshort
  · obtain ⟨hash, separator, name, rfl, hlength, hname⟩ := exists_parts hlong
    exact judged_parts hlength hname

/-! ## The two parts of a path -/

section Cuts

variable (p : StorePath)

theorem utf8_hashPart_eq_latin1 : Text.utf8 p.hashPart.text = Text.latin1 p.hashPart.text :=
  Text.utf8_eq_latin1 fun c hc ↦ toNat_lt_of_isDigit (p.hashPart.isDigit_of_mem c hc)

theorem length_utf8_hashPart : (Text.utf8 p.hashPart.text).length = 32 := by
  rw [utf8_hashPart_eq_latin1, Text.latin1, List.length_map, p.hashPart.length_text]
  rfl

theorem toBytes_eq_append : p.toBytes = Text.utf8 p.hashPart.text ++
    Text.utf8 ['-'] ++ Text.utf8 p.name.text := by
  rw [← utf8_text, text, List.append_cons, Text.utf8, List.flatMap_append, List.flatMap_append]
  rfl

theorem utf8_hashPart : Text.utf8 p.hashPart.text = p.toBytes.take 32 := by
  rw [toBytes_eq_append, List.append_assoc, List.take_left' p.length_utf8_hashPart]

theorem utf8_name : Text.utf8 p.name.text = p.toBytes.drop 33 := by
  rw [toBytes_eq_append, List.drop_left']
  rw [List.length_append, length_utf8_hashPart]
  rfl

theorem cutAt?_text : Text.cutAt? 32 p.text = some (p.hashPart.text, '-' :: p.name.text) := by
  have := Text.cutAt?_append p.hashPart.text ('-' :: p.name.text)
  rwa [length_utf8_hashPart] at this

theorem cutAt?_text_succ :
    Text.cutAt? 33 p.text = some (p.hashPart.text ++ ['-'], p.name.text) := by
  have hlength : (Text.utf8 (p.hashPart.text ++ ['-'])).length = 33 := by
    rw [Text.utf8, List.flatMap_append, List.length_append, ← Text.utf8, length_utf8_hashPart]
    rfl
  have := Text.cutAt?_append (p.hashPart.text ++ ['-']) p.name.text
  rwa [hlength, ← List.append_cons] at this

end Cuts

/-- **The parser keeps the grammar.** Some bytes are read as a path exactly if they are grammatical;
the path then has just these bytes, its two parts are those in front of and behind the byte at
position 32, no character lies across these cuts, and reading the path's bytes gives it again. All
others are refused for the first rule that they break. And a reader by positions, who has no answer
where a position is out of range, always has the answer of the parser. -/
theorem ofBytes_keeps_grammar (bs : Bytes) :
    ((∃ p, ofBytes bs = .ok p) ↔ Grammatical bs) ∧
    (∀ p, ofBytes bs = .ok p → p.toBytes = bs ∧ Text.utf8 p.text = bs ∧
      Text.utf8 p.hashPart.text = bs.take 32 ∧ Text.utf8 p.name.text = bs.drop 33 ∧
      Text.cutAt? 32 p.text = some (p.hashPart.text, '-' :: p.name.text) ∧
      Text.cutAt? 33 p.text = some (p.hashPart.text ++ ['-'], p.name.text) ∧
      ofBytes p.toBytes = .ok p) ∧
    (∀ e, ofBytes bs = .error e ↔ FirstBroken bs e) ∧
    (readAt bs).run = some ((ofBytes bs).map text) := by
  refine ⟨?_, fun p hp ↦ ?_, fun e ↦ ?_, ?_⟩
  · constructor
    · rintro ⟨p, hp⟩
      cases judged bs with
      | accepted _ _ _ hgrammar => exact hgrammar
      | refused e hparse => exact absurd (hp.symm.trans hparse) (by simp)
    · intro hgrammar
      cases judged bs with
      | accepted p hparse => exact ⟨p, hparse⟩
      | refused e _ _ hfirst =>
        obtain ⟨_, rule, _, _, hbreaks, _⟩ := hfirst
        exact absurd hbreaks (hgrammar.keeps rule e)
  · obtain rfl := ofBytes_eq_ok_iff.1 hp
    exact ⟨rfl, p.utf8_text, p.utf8_hashPart, p.utf8_name, p.cutAt?_text, p.cutAt?_text_succ, hp⟩
  · cases judged bs with
    | accepted p hparse _ hgrammar =>
      constructor
      · intro he
        exact absurd (hparse.symm.trans he) (by simp)
      · rintro ⟨_, rule, _, _, hbreaks, _⟩
        exact absurd hbreaks (hgrammar.keeps rule e)
    | refused e' hparse _ hfirst =>
      constructor
      · intro he
        cases hparse.symm.trans he
        exact hfirst
      · intro he
        rw [hparse, hfirst.unique he]
  · cases judged bs with
    | accepted p hparse hread =>
      rw [hparse, hread]
      rfl
    | refused e hparse hread =>
      rw [hparse, hread]
      rfl

end StorePath

end NixStore

import NixStore.Archive.Reader
import NixStore.Proofs.Archive.Encoding

/-!
# Archives decode uniquely

What the reader reads from the encoding of a node, with anything behind it, is the node, and what
is left is what was behind it. Names and contents may look like words of the format themselves;
they are never looked at, because their lengths are told before them.
-/

namespace NixStore

namespace Archive

/-! ## Tokens -/

/-- The lengths that fit into eight bytes are those below. -/
def sizeLimit : Nat := 0x10000000000000000

theorem ofLittleEndian_lengthField {n : Nat} (h : n < sizeLimit) :
    ofLittleEndian (lengthField n) = n := by
  have hbyte : ∀ k : Nat, k.toUInt8.toNat = k % 256 := by
    intro k
    rw [Nat.toUInt8_eq]
    exact UInt8.toNat_ofNat'
  simp only [sizeLimit] at h
  simp only [lengthField, littleEndian, ofLittleEndian, hbyte]
  omega

/-- A reader has read a value and left the rest. -/
def Reads {α : Type} {input : Bytes} (read : Option (Parsed α input)) (value : α)
    (rest : Bytes) : Prop :=
  ∃ h, read = some ⟨value, rest, h⟩

theorem Reads.done {α : Type} {input rest : Bytes} {value : α}
    (h : rest.length < input.length) : Reads (some ⟨value, rest, h⟩ : Option (Parsed α input))
      value rest :=
  ⟨h, rfl⟩

theorem Reads.bind {α β : Type} {input input' rest left : Bytes} {value : α} {result : β}
    {read : Option (Parsed α input)} {next : Parsed α input → Option (Parsed β input')}
    (h : Reads read value rest) (hnext : ∀ h, Reads (next ⟨value, rest, h⟩) result left) :
    Reads (read >>= next) result left := by
  obtain ⟨hshorter, hread⟩ := h
  rw [hread]
  exact hnext hshorter

theorem token?_token {data : Bytes} (h : data.length < sizeLimit) (rest : Bytes) :
    Reads (token? (token data ++ rest)) data rest := by
  have hfield : (lengthField data.length).length = 8 := length_littleEndian 8 _
  have hinput : token data ++ rest
      = lengthField data.length ++ (data ++ (padding data.length ++ rest)) := by
    simp only [token, List.append_assoc]
  have hsize : ofLittleEndian ((token data ++ rest).take 8) = data.length := by
    rw [hinput, List.take_left' hfield, ofLittleEndian_lengthField h]
  have hdrop : (token data ++ rest).drop 8 = data ++ (padding data.length ++ rest) := by
    rw [hinput, List.drop_left' hfield]
  have hlong : 8 ≤ (token data ++ rest).length := by
    rw [hinput, List.length_append, hfield]
    exact Nat.le_add_right 8 _
  refine ⟨?_, ?_⟩
  · rw [hinput]
    simp only [List.length_append, hfield]
    omega
  · simp only [token?, hsize, hdrop, List.take_left, List.drop_left, hlong]
    exact dif_pos ⟨trivial, trivial, trivial⟩

theorem token?_word (s : String) (h : (Text.utf8 (text s)).length < sizeLimit) (rest : Bytes) :
    Reads (token? (word s ++ rest)) (Text.utf8 (text s)) rest :=
  token?_token h rest

theorem word?_word (s : String) (h : (Text.utf8 (text s)).length < sizeLimit) (rest : Bytes) :
    Reads (word? s (word s ++ rest)) () rest := by
  refine (token?_word s h rest).bind fun hshorter ↦ ?_
  rw [if_pos rfl]
  exact .done hshorter

theorem word?_close (rest : Bytes) : Reads (word? ")" (close ++ rest)) () rest :=
  word?_word ")" (by decide) rest

/-! ## Files and links -/

theorem contents?_token (executable : Bool) {data : Bytes} (h : data.length < sizeLimit)
    (rest : Bytes) :
    Reads (contents? executable (token data ++ (close ++ rest))) (.file executable data) rest := by
  refine (token?_token h _).bind fun _ ↦ ?_
  exact (word?_close rest).bind fun _ ↦ .done _

theorem link?_target {target : Bytes} (h : target.length < sizeLimit) (rest : Bytes) :
    Reads (link? (word "target" ++ (token target ++ (close ++ rest)))) (.link target) rest := by
  refine (word?_word "target" (by decide) _).bind fun _ ↦ ?_
  refine (token?_token h _).bind fun _ ↦ ?_
  exact (word?_close rest).bind fun _ ↦ .done _

/-- The words in front of the contents of a file. -/
def fileWords (executable : Bool) : Bytes :=
  (if executable then word "executable" ++ word "" else []) ++ word "contents"

theorem file?_fileWords (executable : Bool) {data : Bytes} (h : data.length < sizeLimit)
    (rest : Bytes) :
    Reads (file? (fileWords executable ++ (token data ++ (close ++ rest))))
      (.file executable data) rest := by
  cases executable with
  | false =>
    refine (token?_word "contents" (by decide) _).bind fun _ ↦ ?_
    rw [if_pos rfl]
    exact (contents?_token false h rest).bind fun _ ↦ .done _
  | true =>
    have hne : Text.utf8 (text "executable") ≠ Text.utf8 (text "contents") := by decide
    rw [fileWords, if_pos rfl, List.append_assoc, List.append_assoc]
    refine (token?_word "executable" (by decide) _).bind fun _ ↦ ?_
    rw [if_neg hne, if_pos rfl]
    refine (word?_word "" (by decide) _).bind fun _ ↦ ?_
    refine (word?_word "contents" (by decide) _).bind fun _ ↦ ?_
    exact (contents?_token true h rest).bind fun _ ↦ .done _

/-! ## Nodes -/

/-- The words in front of what is particular to a kind of node. -/
def kindWords (kind : String) : Bytes := word "(" ++ (word "type" ++ word kind)

theorem kindWords_append (kind : String) (body : Bytes) :
    kindWords kind ++ body = word "(" ++ (word "type" ++ (word kind ++ body)) := by
  simp only [kindWords, List.append_assoc]

theorem Reads.node?_file {body rest : Bytes} {node : ArchiveNode}
    (h : Reads (file? body) node rest) : Reads (node? (kindWords "regular" ++ body)) node rest := by
  rw [kindWords_append, node?]
  refine (word?_word "(" (by decide) _).bind fun _ ↦ ?_
  refine (word?_word "type" (by decide) _).bind fun _ ↦ ?_
  refine (token?_word "regular" (by decide) _).bind fun _ ↦ ?_
  dsimp only
  rw [if_pos rfl]
  exact h.bind fun _ ↦ .done _

theorem Reads.node?_link {body rest : Bytes} {node : ArchiveNode}
    (h : Reads (link? body) node rest) : Reads (node? (kindWords "symlink" ++ body)) node rest := by
  have hne : Text.utf8 (text "symlink") ≠ Text.utf8 (text "regular") := by decide
  rw [kindWords_append, node?]
  refine (word?_word "(" (by decide) _).bind fun _ ↦ ?_
  refine (word?_word "type" (by decide) _).bind fun _ ↦ ?_
  refine (token?_word "symlink" (by decide) _).bind fun _ ↦ ?_
  dsimp only
  rw [if_neg hne, if_pos rfl]
  exact h.bind fun _ ↦ .done _

theorem Reads.node?_directory {body rest : Bytes} {entries : List (Bytes × ArchiveNode)}
    (h : Reads (entries? none body) entries rest) :
    Reads (node? (kindWords "directory" ++ body)) (.directory entries) rest := by
  have hfile : Text.utf8 (text "directory") ≠ Text.utf8 (text "regular") := by decide
  have hlink : Text.utf8 (text "directory") ≠ Text.utf8 (text "symlink") := by decide
  rw [kindWords_append, node?]
  refine (word?_word "(" (by decide) _).bind fun _ ↦ ?_
  refine (word?_word "type" (by decide) _).bind fun _ ↦ ?_
  refine (token?_word "directory" (by decide) _).bind fun _ ↦ ?_
  dsimp only
  rw [if_neg hfile, if_neg hlink, if_pos rfl]
  exact h.bind fun _ ↦ .done _

theorem entries?_close (previous : Option Bytes) (rest : Bytes) :
    Reads (entries? previous (close ++ rest)) [] rest := by
  rw [entries?]
  refine (token?_word ")" (by decide) rest).bind fun hshorter ↦ ?_
  rw [if_pos rfl]
  exact .done hshorter

theorem openEntry_append (name body : Bytes) :
    openEntry name ++ body
      = word "entry" ++ (word "(" ++ (word "name" ++ (token name ++ (word "node" ++ body)))) := by
  simp only [openEntry, List.append_assoc]

theorem Reads.entries?_cons {previous : Option Bytes} {name body more rest : Bytes}
    {node : ArchiveNode} {others : List (Bytes × ArchiveNode)} (hname : name.length < sizeLimit)
    (hfollows : follows previous name = true) (hnode : Reads (node? body) node (close ++ more))
    (hothers : Reads (entries? (some name) more) others rest) :
    Reads (entries? previous (openEntry name ++ body)) ((name, node) :: others) rest := by
  have hne : Text.utf8 (text "entry") ≠ Text.utf8 (text ")") := by decide
  rw [openEntry_append, entries?]
  refine (token?_word "entry" (by decide) _).bind fun _ ↦ ?_
  rw [if_neg hne, if_pos rfl]
  refine (word?_word "(" (by decide) _).bind fun _ ↦ ?_
  refine (word?_word "name" (by decide) _).bind fun _ ↦ ?_
  refine (token?_token hname _).bind fun _ ↦ ?_
  refine (word?_word "node" (by decide) _).bind fun _ ↦ ?_
  dsimp only
  rw [if_pos hfollows]
  refine hnode.bind fun _ ↦ ?_
  refine (word?_close more).bind fun _ ↦ ?_
  exact hothers.bind fun _ ↦ .done _

end Archive

/-! ## Trees -/

namespace ArchiveNode

/-- All lengths fit into eight bytes, and the names in a directory increase. -/
inductive WellFormed : ArchiveNode → Prop
  | file {executable data} (h : data.length < Archive.sizeLimit) :
      WellFormed (.file executable data)
  | link {target} (h : target.length < Archive.sizeLimit) : WellFormed (.link target)
  | directory {entries} (hsorted : (entries.map (·.1)).Pairwise (· < ·))
      (hnames : ∀ e ∈ entries, e.1.length < Archive.sizeLimit)
      (hentries : ∀ e ∈ entries, WellFormed e.2) : WellFormed (.directory entries)

open Archive

theorem encode_file_append (executable : Bool) (data rest : Bytes) :
    (file executable data).encode ++ rest
      = kindWords "regular" ++ (fileWords executable ++ (token data ++ (close ++ rest))) := by
  have hempty : word "" = token [] := rfl
  simp only [encode, openFile, closeFile, kindWords, fileWords, hempty, token, List.append_assoc]

theorem encode_link_append (target rest : Bytes) :
    (link target).encode ++ rest
      = kindWords "symlink" ++ (word "target" ++ (token target ++ (close ++ rest))) := by
  simp only [encode, linkNode, kindWords, List.append_assoc]

theorem encode_directory_append (entries : List (Bytes × ArchiveNode)) (rest : Bytes) :
    (directory entries).encode ++ rest
      = kindWords "directory" ++ (encodeEntries entries ++ (close ++ rest)) := by
  simp only [encode, openDirectory, kindWords, List.append_assoc]

/-- The entries of a directory are read back if each of their nodes is. -/
theorem entries?_encodeEntries {entries : List (Bytes × ArchiveNode)}
    (hnodes : ∀ e ∈ entries, ∀ rest, Reads (node? (e.2.encode ++ rest)) e.2 rest)
    (hnames : ∀ e ∈ entries, e.1.length < sizeLimit)
    (hsorted : (entries.map (·.1)).Pairwise (· < ·)) (previous : Option Bytes)
    (hfollows : ∀ e ∈ entries, follows previous e.1 = true) (rest : Bytes) :
    Reads (entries? previous (encodeEntries entries ++ (close ++ rest))) entries rest := by
  induction entries generalizing previous with
  | nil => exact entries?_close previous rest
  | cons e others ih =>
    obtain ⟨hnode, hnodes⟩ := List.forall_mem_cons.1 hnodes
    obtain ⟨hname, hnames⟩ := List.forall_mem_cons.1 hnames
    obtain ⟨hfirst, hfollows⟩ := List.forall_mem_cons.1 hfollows
    rw [List.map_cons, List.pairwise_cons] at hsorted
    have hnext : ∀ e' ∈ others, follows (some e.1) e'.1 = true := fun e' he' ↦
      decide_eq_true (hsorted.1 _ (List.mem_map_of_mem he'))
    rw [encodeEntries, List.append_assoc, List.append_assoc, List.append_assoc]
    exact Reads.entries?_cons hname hfirst (hnode _) (ih hnodes hnames hsorted.2 _ hnext)

/-- The encoding of a node is read back, and what is behind it is left. -/
theorem node?_encode {node : ArchiveNode} (h : node.WellFormed) (rest : Bytes) :
    Reads (node? (node.encode ++ rest)) node rest := by
  induction h generalizing rest with
  | file h =>
    rw [encode_file_append]
    exact (file?_fileWords _ h rest).node?_file
  | link h =>
    rw [encode_link_append]
    exact (link?_target h rest).node?_link
  | directory hsorted hnames hentries ih =>
    rw [encode_directory_append]
    exact (entries?_encodeEntries ih hnames hsorted none (fun _ _ ↦ rfl) rest).node?_directory

/-- A whole archive is read back. -/
theorem read?_archive {node : ArchiveNode} (h : node.WellFormed) (rest : Bytes) :
    read? (node.archive ++ rest) = some (node, rest) := by
  obtain ⟨h₁, hread⟩ := word?_word "nix-archive-1" (by decide) (node.encode ++ rest)
  obtain ⟨h₂, hread'⟩ := node?_encode h rest
  have hinput : node.archive ++ rest = word "nix-archive-1" ++ (node.encode ++ rest) :=
    List.append_assoc _ _ _
  rw [hinput, read?]
  simp only [hread, hread', Option.bind_eq_bind, Option.bind_some, Option.pure_def]

end ArchiveNode

/-! ## Archives of trees -/

namespace FileNode

mutual

/-- Whether the length of every file and link fits into eight bytes. -/
def fits : FileNode → Bool
  | file data _ => data.length < Archive.sizeLimit
  | link target => target.length < Archive.sizeLimit
  | directory entries => allFit entries
  | fifo | socket => true

/-- The same for the entries of a directory. -/
def allFit : List (Bytes × FileNode) → Bool
  | [] => true
  | (_, node) :: rest => fits node && allFit rest

end

theorem allFit_iff {entries : List (Bytes × FileNode)} :
    allFit entries = true ↔ ∀ e ∈ entries, e.2.fits = true := by
  induction entries with
  | nil => simp [allFit]
  | cons e rest ih => simp [allFit, ih]

theorem wellFormed_fill {special : ArchiveNode} (hspecial : special.WellFormed) {node : FileNode}
    {path : Bytes} (hreadable : node.isReadable path = true) (hfits : node.fits = true) :
    (node.fill special).WellFormed := by
  induction node using FileNode.induction generalizing path with
  | file data mode => exact .file (by simpa [fits] using hfits)
  | link target => exact .link (by simpa [fits] using hfits)
  | fifo | socket => exact hspecial
  | directory entries ih =>
    obtain ⟨-, hnodup, hentries⟩ := isReadable_directory.1 hreadable
    have hfits := allFit_iff.1 hfits
    rw [fill_directory, fillEntries_eq_map]
    refine .directory ?_ ?_ ?_
    · rw [List.map_map]
      exact Archive.pairwise_sortEntries hnodup
    · rw [List.forall_mem_map]
      intro e he
      have hname := (hentries e (Archive.mem_sortEntries.1 he)).1
      exact Nat.lt_of_le_of_lt hname.length_le (by decide)
    · rw [List.forall_mem_map]
      intro e he
      have he := Archive.mem_sortEntries.1 he
      exact ih e he (hentries e he).2 (hfits e he)

theorem exists_canonical_of_mem {entries : List (Bytes × FileNode)}
    {es : List (Bytes × ArchiveNode)} (h : canonicalEntries? entries = some es) :
    ∀ e ∈ entries, ∃ a, e.2.canonical? = some a := by
  induction entries generalizing es with
  | nil => exact fun _ he ↦ absurd he List.not_mem_nil
  | cons e rest ih =>
    simp only [canonicalEntries?, Option.bind_eq_bind, Option.bind_eq_some_iff] at h
    obtain ⟨a, ha, es', hes', -⟩ := h
    exact List.forall_mem_cons.2 ⟨⟨a, ha⟩, ih hes'⟩

theorem specials_eq_nil_of_canonical? {node : FileNode} {a : ArchiveNode}
    (h : node.canonical? = some a) (path : Bytes) : node.specials path = [] := by
  induction node using FileNode.induction generalizing path a with
  | file | link => rfl
  | fifo | socket => cases h
  | directory entries ih =>
    rw [specials_directory, List.flatMap_eq_nil_iff]
    intro e he
    rw [canonical?, Option.map_eq_some_iff] at h
    obtain ⟨es, hes, -⟩ := h
    have he := Archive.mem_sortEntries.1 he
    obtain ⟨a', ha'⟩ := exists_canonical_of_mem hes e he
    exact ih e he ha' _

end FileNode

/-- A tree of files, links and directories that can be read at a path and archived. -/
structure Archivable where
  disk : FileNode
  root : Bytes
  node : FileNode
  canonical : ArchiveNode
  entry_eq : disk.entry false root = .ok node
  readable : node.isReadable root = true
  canonical_eq : node.canonical? = some canonical
  fits : node.fits = true

namespace Archivable

/-- The archive that a dump of the tree writes. -/
def archive (t : Archivable) : Bytes := ((t.disk.dumpTo Sink.collect t.root).run []).2

theorem eq_fill (t : Archivable) (special : ArchiveNode) :
    t.canonical = t.node.fill special := by
  have h := FileNode.canonical?_eq_some_fill
    (FileNode.specials_eq_nil_of_canonical? t.canonical_eq t.root) special
  exact Option.some.inj (t.canonical_eq.symm.trans h)

theorem wellFormed (t : Archivable) : t.canonical.WellFormed := by
  rw [t.eq_fill (.link [])]
  exact FileNode.wellFormed_fill (.link (by decide)) t.readable t.fits

theorem run_collect (t : Archivable) :
    (t.disk.dumpTo Sink.collect t.root).run [] = (.ok (), t.canonical.archive) := by
  have hspecials := FileNode.specials_eq_nil_of_canonical? t.canonical_eq t.root
  obtain ⟨s', hrun, htaken⟩ :=
    FileNode.run_dumpTo t.entry_eq t.readable Sink.takesAll_collect []
  rw [hspecials] at hrun
  rw [FileNode.bytes_transcript hspecials (.link []), ← t.eq_fill] at htaken
  rw [hrun]
  exact congrArg _ htaken

/-- The archive of a tree is read back as its canonical form, whatever stands behind it. So trees
have the same archive if and only if they have the same canonical form, and no archive is the
start of another one. -/
theorem archive_decodes_uniquely (t : Archivable) :
    (t.disk.dumpTo Sink.collect t.root).run [] = (.ok (), t.archive) ∧
      (∀ rest, Archive.read? (t.archive ++ rest) = some (t.canonical, rest)) ∧
      ∀ t' : Archivable, (t.archive = t'.archive ↔ t.canonical = t'.canonical) ∧
        (t.archive <+: t'.archive → t.archive = t'.archive) := by
  have harchive : ∀ t : Archivable, t.archive = t.canonical.archive := by
    intro t
    rw [archive, t.run_collect]
  have hread : ∀ (t : Archivable) (rest : Bytes),
      Archive.read? (t.archive ++ rest) = some (t.canonical, rest) := by
    intro t rest
    rw [harchive, ArchiveNode.read?_archive t.wellFormed]
  refine ⟨by rw [harchive, t.run_collect], hread t, fun t' ↦ ⟨⟨?_, ?_⟩, ?_⟩⟩
  · intro h
    have hsame := hread t []
    rw [h, hread t' []] at hsame
    exact (Prod.mk.inj (Option.some.inj hsame)).1.symm
  · intro h
    rw [harchive, harchive, h]
  · rintro ⟨rest, h⟩
    -- what is read from the front of the longer one is the whole of the shorter one
    have hsame := hread t rest
    rw [h, ← List.append_nil t'.archive, hread t' []] at hsame
    rw [harchive, harchive, (Prod.mk.inj (Option.some.inj hsame)).1]

/-- A directory as its entries were put in. -/
private def listed : Archivable where
  disk := .directory [([0x6E], .directory [([0x62], .file [1] 0o755), ([0x61], .link [0x62])])]
  root := [0x2F, 0x6E]
  node := .directory [([0x62], .file [1] 0o755), ([0x61], .link [0x62])]
  canonical := .directory [([0x61], .link [0x62]), ([0x62], .file true [1])]
  entry_eq := by
    simp +decide [FileNode.entry, FileNode.lookUp, follow, FilePath.names, Text.split,
      Text.splitFrom, FileNode.find?, bind, Except.bind, pure, Except.pure]
  readable := by decide
  canonical_eq := by
    simp +decide [FileNode.canonical?, FileNode.canonicalEntries?, Archive.sortEntries,
      List.mergeSort]
  fits := by decide

/-- The same directory in another place, with its entries in order and without other users. -/
private def ordered : Archivable where
  disk := .directory [([0x61], .link [0x62]), ([0x62], .file [1] 0o700)]
  root := [0x2F]
  node := .directory [([0x61], .link [0x62]), ([0x62], .file [1] 0o700)]
  canonical := .directory [([0x61], .link [0x62]), ([0x62], .file true [1])]
  entry_eq := by
    simp +decide [FileNode.entry, FileNode.lookUp, follow, FilePath.names, Text.split,
      Text.splitFrom, bind, Except.bind, pure, Except.pure]
  readable := by decide
  canonical_eq := by
    simp +decide [FileNode.canonical?, FileNode.canonicalEntries?, Archive.sortEntries,
      List.mergeSort]
  fits := by decide

theorem archive_listed_eq_ordered :
    listed.archive = ordered.archive ∧
      Archive.read? (listed.archive ++ [0]) = some (ordered.canonical, [0]) :=
  ⟨((archive_decodes_uniquely listed).2.2 ordered).1.2 rfl,
    (archive_decodes_uniquely listed).2.1 [0]⟩

end Archivable

end NixStore

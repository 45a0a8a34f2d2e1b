import StubManager.Proofs.Digest.Stream
import StubManager.Proofs.FileTree.Actions
import StubManager.Proofs.FileTree.Tidy

/-!
# What a digest says of a directory

Directories of the same files have the same digest (`files_congr`). The other way round a digest
fixes the files only where no path holds a backslash and no contents hold a zero byte, since the
stream that is hashed does not mark either: `digests_eq_iff`.
-/

namespace StubManager

namespace Digest

/-! ## The files of a digest -/

theorem pathsInOrder_iff {names names' : List String} :
    pathsInOrder names names' ↔ ¬ names' < names := by
  rw [List.not_lt]
  induction names generalizing names' with
  | nil => simp [pathsInOrder]
  | cons name names ih =>
    cases names' with
    | nil => simp [pathsInOrder]
    | cons name' names' =>
      rw [pathsInOrder, List.cons_le_cons_iff]
      split
      · next heq => simp [heq, ih]
      · next hne => simp [hne]

theorem mem_files_iff_of_tidy {node : Node} (h : node.Tidy) {names : List String}
    {data : ByteArray} : (names, data) ∈ files node ↔ names ≠ [] ∧ node.HasFile names data := by
  rw [files, (List.mergeSort_perm _ _).mem_iff, List.mem_filterMap]
  constructor
  · rintro ⟨⟨names, n⟩, hmem, heq⟩
    cases n with
    | file data executable =>
      cases heq
      obtain ⟨hne, hget⟩ := h.mem_descendants_iff.1 hmem
      exact ⟨hne, executable, hget⟩
    | link target => cases heq
    | directory entries => cases heq
  · rintro ⟨hne, executable, hget⟩
    exact ⟨(names, .file data executable), h.mem_descendants_iff.2 ⟨hne, hget⟩, rfl⟩

theorem mem_files_iff {node : Node} (h : node.Plain) {names : List String} {data : ByteArray} :
    (names, data) ∈ files node ↔ names ≠ [] ∧ node.HasFile names data :=
  mem_files_iff_of_tidy h.tidy

theorem nodup_files {node : Node} (h : node.Tidy) : (files node).Nodup := by
  refine (List.mergeSort_perm _ _).nodup_iff.2 (h.pairwise_descendants.filterMap _ ?_)
  -- A file keeps its names on the way into the list, and nothing else gets there.
  rintro ⟨names, n⟩ ⟨names', n'⟩ hne file hfile file' hfile' rfl
  cases n <;> cases hfile
  cases n' <;> cases hfile'
  exact hne rfl

theorem pairwise_files (node : Node) :
    (files node).Pairwise fun file file' => pathsInOrder file.1 file'.1 := by
  refine List.pairwise_mergeSort ?_ ?_ _
  · intro a b c hab hbc
    rw [pathsInOrder_iff, List.not_lt] at hab hbc ⊢
    exact List.le_trans hab hbc
  · intro a b
    rw [Bool.or_eq_true, pathsInOrder_iff, pathsInOrder_iff, List.not_lt, List.not_lt]
    exact List.le_total ..

/-- Files that are in order already stay as they are. -/
theorem files_of_sorted {node : Node} {fs : List (List String × ByteArray)}
    (hfs : (node.descendants.filterMap fun (names, n) =>
      match n with
      | .file data _ => some (names, data)
      | _ => none) = fs)
    (h : (fs.map Prod.fst).Pairwise (pathsInOrder · ·)) : files node = fs := by
  subst hfs
  exact List.mergeSort_of_pairwise (List.pairwise_map.1 h)

/-- Nothing but the paths and the contents of its files goes into the digest of a directory. The
order of its entries does not. -/
theorem files_congr_of_tidy {node node' : Node} (h : node.Tidy) (h' : node'.Tidy)
    (hsame : ∀ names data, node.HasFile names data ↔ node'.HasFile names data) :
    files node = files node' := by
  have hperm : (files node).Perm (files node') := by
    rw [List.perm_ext_iff_of_nodup (nodup_files h) (nodup_files h')]
    rintro ⟨names, data⟩
    rw [mem_files_iff_of_tidy h, mem_files_iff_of_tidy h', hsame]
  refine hperm.eq_of_pairwise ?_ (pairwise_files node) (pairwise_files node')
  rintro ⟨names, data⟩ ⟨names', data'⟩ hmem hmem' hle hge
  rw [pathsInOrder_iff, List.not_lt] at hle hge
  obtain rfl : names = names' := List.le_antisymm hle hge
  obtain ⟨-, executable, hget⟩ := (mem_files_iff_of_tidy h).1 hmem
  obtain ⟨-, hfile⟩ := (mem_files_iff_of_tidy h').1 hmem'
  obtain ⟨executable', hget'⟩ := (hsame names data').2 hfile
  rw [hget, Option.some.injEq] at hget'
  cases hget'
  rfl

theorem files_congr {node node' : Node} (h : node.Plain) (h' : node'.Plain)
    (hsame : ∀ names data, node.HasFile names data ↔ node'.HasFile names data) :
    files node = files node' := files_congr_of_tidy h.tidy h'.tidy hsame

theorem isPath_of_hasFile {node : Node} (h : node.Plain) {names : List String} {data : ByteArray}
    (hne : names ≠ []) (hfile : node.HasFile names data) : IsPath names := by
  refine ⟨hne, fun name hname => ?_⟩
  obtain ⟨executable, hget⟩ := hfile
  obtain ⟨front, back, rfl⟩ := List.append_of_mem hname
  rw [List.append_cons, Node.get?_append, Option.bind_eq_some_iff] at hget
  obtain ⟨node', hnode', -⟩ := hget
  exact h.isName hnode'

theorem files_inj {node node' : Node} (h : node.Plain) (h' : node'.Plain)
    (hframed : ∀ names data, node.HasFile names data → Framed (names, data))
    (hframed' : ∀ names data, node'.HasFile names data → Framed (names, data))
    (hstream : stream (files node) = stream (files node')) : files node = files node' := by
  refine stream_inj ?_ ?_ hstream
  · rintro ⟨names, data⟩ hmem
    obtain ⟨hne, hfile⟩ := (mem_files_iff h).1 hmem
    exact ⟨isPath_of_hasFile h hne hfile, hframed names data hfile⟩
  · rintro ⟨names, data⟩ hmem
    obtain ⟨hne, hfile⟩ := (mem_files_iff h').1 hmem
    exact ⟨isPath_of_hasFile h' hne hfile, hframed' names data hfile⟩

theorem ofNode_inj {node node' : Node} (h : ofNode node = ofNode node') :
    blake3 (stream (files node)) = blake3 (stream (files node')) := by
  have htext := congrArg String.toList h
  rw [ofNode, ofNode, String.toList_append, String.toList_append, List.append_cancel_left_eq,
    String.toList_inj] at htext
  exact hex_inj htext

/-! ## Digests -/

theorem ofDirectory_apply {w : World} {p : Path} {entries : List (String × Node)}
    (h : w.find? p = some (.directory entries)) :
    ofDirectory p w = (.ok (ofNode (.directory entries)), w) := by
  simp only [ofDirectory, Running.bind_apply, Running.get_apply, h]
  rfl

/-- A file in a directory and one beside it. -/
def twoFiles (text : String) (executable : Bool) : List (String × Node) :=
  [("a", .directory [("pin", .file "x".toUTF8 executable)]), ("b", .file text.toUTF8 false)]

theorem plain_twoFiles (text : String) (executable : Bool) :
    (Node.directory (twoFiles text executable)).Plain := by
  refine Node.plain_directory_iff.2 ⟨?_, (by decide : ["a", "b"].Pairwise (· < ·))⟩
  simp [twoFiles, Node.plain_directory_iff, Node.plain_file, IsName]

theorem files_twoFiles (text : String) (executable : Bool) :
    files (.directory (twoFiles text executable))
      = [(["a", "pin"], "x".toUTF8), (["b"], text.toUTF8)] :=
  files_of_sorted rfl (show List.Pairwise _ [["a", "pin"], ["b"]] by decide)

theorem hasFile_twoFiles_iff {text : String} {executable : Bool} {names : List String}
    {data : ByteArray} : (Node.directory (twoFiles text executable)).HasFile names data ↔
      (names, data) ∈ [(["a", "pin"], "x".toUTF8), (["b"], text.toUTF8)] := by
  rw [← files_twoFiles text executable, mem_files_iff (plain_twoFiles text executable)]
  refine ⟨fun hfile => ⟨?_, hfile⟩, fun h => h.2⟩
  rintro rfl
  obtain ⟨mode, hget⟩ := hfile
  cases hget

/-- The hash of a text that fits into one chunk. -/
theorem blake3_of_chunk {data : ByteArray} (h : (data.size + 1023) / 1024 ≤ 1) :
    blake3 data = ({ chunkAt data 0 with
      counter := 0
      flags := (chunkAt data 0).flags ||| rootNode } : Pending).compress.toList.flatMap
        wordBytes := by
  rw [blake3, subtree, dif_pos h]

end Digest

end StubManager

import OcrOrchestrator.Lib.Dict
import Mathlib.Data.List.Dedup

/-!
# The directory of documents

A document is found by the id of its job and, in a sweep, by its file name.  `pdf_path` makes a
name of an id, if the id is safe; `orphan_candidates` goes through the directory and makes ids of
names, `Path.stem` of all that match `*.pdf`.  What is deleted is named by an id again.

A sweep runs over whatever is in the directory.  That it removes what it means to, and nothing
else, depends on the two ways agreeing.

## Main definitions

* `safeJobId`, `pdfPath`, `stem` — names and ids.
* `orphanCandidates`, `deleteDocument`, `sweepOrphanDocuments` — the functions of a sweep.
* `sweepOrphanDocuments_eq` — what is in the directory afterwards, and what is returned.
-/

namespace OcrOrchestrator

open Lib

/-- A string, as Python sees it. -/
abbrev Name := List Char

/-- `[A-Za-z0-9_-]`. -/
def safeChar (c : Char) : Bool := c.isAlphanum || c = '_' || c = '-'

/-- `_SAFE_JOB_ID`. -/
def safeJobId (id : Name) : Bool :=
  decide (1 ≤ id.length) && decide (id.length ≤ 64) && id.all safeChar

/-- The suffix of a document. -/
def dotPdf : Name := ['.', 'p', 'd', 'f']

/-- `pdf_path`, as the name in `data_dir`; `none` is a `ValueError`. -/
def pdfPath (id : Name) : Option Name := if safeJobId id then some (id ++ dotPdf) else none

/-- `PurePath.stem`: the name up to its last dot, unless that is its first or last character. -/
def stem (name : Name) : Name :=
  let ext := name.reverse.takeWhile fun c => c ≠ '.'
  match name.reverse.drop ext.length with
  | _ :: rest => if ext = [] ∨ rest = [] then name else rest.reverse
  | [] => name

/-- A directory: the names in it, with `st_mtime`. -/
abbrev Directory := Dict Name ℕ

/-- Does the loop of `orphan_candidates` keep this entry? -/
def orphaned (now minAge : ℕ) (entry : Name × ℕ) : Bool :=
  dotPdf.isSuffixOf entry.1 && !decide (now < entry.2 + minAge) && safeJobId (stem entry.1)

/-- `orphan_candidates`. -/
def orphanCandidates (dir : Directory) (now minAge : ℕ) : List Name :=
  (dir.filter (orphaned now minAge)).map fun entry => stem entry.1

/-- `delete_document`. -/
def deleteDocument (dir : Directory) (id : Name) : Bool × Directory :=
  match pdfPath id with
  | none => (false, dir)
  | some name => if (dir.get name).isSome then (true, dir.del name) else (false, dir)

/-- `_sweep_orphan_documents`, with nobody interfering; `live` is what `get_job` says. -/
def sweepOrphanDocuments (dir : Directory) (now minAge : ℕ) (live : Name → Bool) :
    ℕ × Directory :=
  (orphanCandidates dir now minAge).foldl
    (fun acc id =>
      if live id then acc
      else
        let (deleted, dir) := deleteDocument acc.2 id
        (if deleted then acc.1 + 1 else acc.1, dir))
    (0, dir)

/-! ## Names and ids -/

theorem slash_not_safe : safeChar '/' = false := by decide

/-- A document lies in the directory itself. -/
theorem slash_notMem_pdfPath {id name : Name} (h : pdfPath id = some name) : '/' ∉ name := by
  rw [pdfPath] at h
  split at h
  next hsafe =>
    obtain rfl := Option.some.inj h
    simp only [safeJobId, Bool.and_eq_true, List.all_eq_true] at hsafe
    rw [List.mem_append]
    rintro (hmem | hmem)
    · have hslash := hsafe.2 _ hmem
      rw [slash_not_safe] at hslash
      cases hslash
    · exact absurd hmem (by decide)
  next => cases h

/-- The last dot of `c.pdf` is the one before `pdf`. -/
theorem stem_append_dotPdf (c : Name) : stem (c ++ dotPdf) = if c = [] then dotPdf else c := by
  have hrev : (c ++ dotPdf).reverse = 'f' :: 'd' :: 'p' :: '.' :: c.reverse := by
    simp [dotPdf]
  have hext : (c ++ dotPdf).reverse.takeWhile (fun c => c ≠ '.') = ['f', 'd', 'p'] := by
    rw [hrev]
    simp
  rw [stem, hext, hrev]
  by_cases hc : c = []
  · simp [hc]
  · simp [hc]

/-- **The id that a sweep makes of a name leads back to the file.** -/
theorem pdfPath_stem {name : Name} (hpdf : dotPdf.isSuffixOf name = true)
    (hsafe : safeJobId (stem name) = true) : pdfPath (stem name) = some name := by
  obtain ⟨c, rfl⟩ := List.isSuffixOf_iff_suffix.mp hpdf
  rw [pdfPath, if_pos hsafe, stem_append_dotPdf]
  rw [stem_append_dotPdf] at hsafe
  by_cases hc : c = []
  · rw [if_pos hc] at hsafe
    exact absurd hsafe (by decide)
  · rw [if_neg hc]

/-- And the name that an upload gets leads back to its job. -/
theorem stem_pdfPath {id name : Name} (h : pdfPath id = some name) : stem name = id := by
  simp only [pdfPath] at h
  split at h
  next hsafe =>
    obtain rfl := Option.some.inj h
    rw [stem_append_dotPdf]
    split
    next hid =>
      rw [hid] at hsafe
      exact absurd hsafe (by decide)
    next => rfl
  next => cases h

/-! ## The loop -/

/-- One deletion, of a file that is there. -/
theorem deleteDocument_eq {dir : Directory} {name : Name} (hpdf : dotPdf.isSuffixOf name = true)
    (hsafe : safeJobId (stem name) = true) (hmem : name ∈ dir.keys) :
    deleteDocument dir (stem name) = (true, dir.filter fun e => e.1 ≠ name) := by
  have hthere : (dir.get name).isSome = true := Dict.get_isSome_iff.mpr hmem
  simp [deleteDocument, pdfPath_stem hpdf hsafe, hthere, Dict.del]

/-- The loop over some of the names in a directory. -/
theorem foldl_deleteDocument (live : Name → Bool) (names : List Name) (dir : Directory) (k : ℕ)
    (hnodup : names.Nodup) (hmem : ∀ name ∈ names, name ∈ dir.keys)
    (hdoc : ∀ name ∈ names, dotPdf.isSuffixOf name = true ∧ safeJobId (stem name) = true) :
    (names.map stem).foldl
      (fun acc id =>
        if live id then acc
        else
          let (deleted, dir) := deleteDocument acc.2 id
          (if deleted then acc.1 + 1 else acc.1, dir))
      (k, dir) =
    (k + (names.filter fun name => !live (stem name)).length,
      dir.filter fun e => !(decide (e.1 ∈ names) && !live (stem e.1))) := by
  induction names generalizing dir k with
  | nil => simp
  | cons name names ih =>
    rw [List.nodup_cons] at hnodup
    have hrest : ∀ name' ∈ names, name' ∈ dir.keys := fun name' h =>
      hmem name' (List.mem_cons_of_mem _ h)
    have hdocs := fun name' h => hdoc name' (List.mem_cons_of_mem name h)
    obtain ⟨hpdf, hsafe⟩ := hdoc name (by simp)
    rw [List.map_cons, List.foldl_cons]
    cases hlive : live (stem name) with
    | true =>
      rw [if_pos rfl, ih dir k hnodup.2 hrest hdocs]
      refine Prod.ext (by simp [hlive]) (List.filter_congr fun e _ => ?_)
      by_cases he : e.1 = name
      · simp [he, hlive]
      · simp [he]
    | false =>
      have hthere : ∀ name' ∈ names, name' ∈ Dict.keys (dir.filter fun e => e.1 ≠ name) := by
        intro name' h
        obtain ⟨e, he, rfl⟩ := List.mem_map.mp (hrest name' h)
        refine List.mem_map.mpr ⟨e, List.mem_filter.mpr ⟨he, ?_⟩, rfl⟩
        rw [decide_eq_true_eq]
        rintro rfl
        exact hnodup.1 h
      rw [if_neg (by simp), deleteDocument_eq hpdf hsafe (hmem name (by simp))]
      dsimp only
      rw [if_pos rfl, ih _ _ hnodup.2 hthere hdocs, List.filter_filter]
      refine Prod.ext ?_ (List.filter_congr fun e _ => ?_)
      · simp [hlive]
        omega
      · by_cases he : e.1 = name
        · simp [he, hlive]
        · simp [he]

/-- **A sweep** removes exactly the documents that are old enough and whose job is gone, and
returns how many: every other file stays, whatever its name. -/
theorem sweepOrphanDocuments_eq (dir : Directory) (now minAge : ℕ) (live : Name → Bool)
    (hnames : dir.keys.Nodup) :
    sweepOrphanDocuments dir now minAge live =
      ((dir.filter fun e => orphaned now minAge e && !live (stem e.1)).length,
        dir.filter fun e => !(orphaned now minAge e && !live (stem e.1))) := by
  have hsub : (dir.filter (orphaned now minAge)).Sublist dir := List.filter_sublist
  have hloop := foldl_deleteDocument live (Dict.keys (dir.filter (orphaned now minAge))) dir 0
    (hnames.sublist (hsub.map Prod.fst)) (fun name h => (hsub.map Prod.fst).subset h) (by
      intro name hname
      obtain ⟨e, he, rfl⟩ := List.mem_map.mp hname
      have horphan := (List.mem_filter.mp he).2
      simp only [orphaned, Bool.and_eq_true] at horphan
      exact ⟨horphan.1.1, horphan.2⟩)
  have hcandidates : orphanCandidates dir now minAge =
      (Dict.keys (dir.filter (orphaned now minAge))).map stem := by
    rw [orphanCandidates, Dict.keys, List.map_map]
    rfl
  rw [sweepOrphanDocuments, hcandidates, hloop]
  refine Prod.ext ?_ (List.filter_congr fun e he => ?_)
  · dsimp only
    rw [Dict.keys, List.filter_map, List.length_map, List.filter_filter, Nat.zero_add]
    congr 1
    refine List.filter_congr fun e _ => ?_
    rw [Bool.and_comm]
    rfl
  · have hmem : decide (e.1 ∈ Dict.keys (dir.filter (orphaned now minAge))) = orphaned now minAge e := by
      rw [Bool.eq_iff_iff, decide_eq_true_eq]
      constructor
      · intro h
        obtain ⟨e', he', hname⟩ := List.mem_map.mp h
        obtain ⟨hdir, horphan⟩ := List.mem_filter.mp he'
        have hget := Dict.get_eq_of_mem hnames hdir
        rw [hname, Dict.get_eq_of_mem hnames (k := e.1) (v := e.2) he] at hget
        have heq : e = e' := Prod.ext hname.symm (Option.some.inj hget)
        rwa [heq]
      · intro h
        exact List.mem_map_of_mem (List.mem_filter.mpr ⟨he, h⟩)
    rw [hmem]

/-- A directory with a file that is no document, one of a live job and one of none. -/
theorem sweepOrphanDocuments_three :
    sweepOrphanDocuments [(['.', 'p', 'd', 'f'], 0), (['a', '.', 'p', 'd', 'f'], 0),
      (['b', '.', 'p', 'd', 'f'], 5)] 905 900 (fun id => id = ['a']) =
      (1, [(['.', 'p', 'd', 'f'], 0), (['a', '.', 'p', 'd', 'f'], 0)]) :=
  (sweepOrphanDocuments_eq _ 905 900 _ (by decide)).trans (by decide +kernel)

end OcrOrchestrator

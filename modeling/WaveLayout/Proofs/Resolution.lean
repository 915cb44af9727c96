import WaveLayout.Proofs.Paths
import WaveLayout.Proofs.References

/-!
# References and directories

A reference in a file is made into a path as text: it is joined to the parent of the path of that
file. The system never sees the reference itself. It could also be opened from the directory that
holds the file.

**Theorem.** Both lead to the same place or fail for the same cause, however the path of the file is
spelled, as long as the system takes the joined path at all. A joined path of more than 4095 bytes
is refused, even if the reference is short. So the references of a discovery are those of the
directories that hold the script and the project file.

The parent leads to the directory of the file (`StandsIn.exists_parent`), and the joined path leads
on from there (`walk_join`). The last piece of the path of a file is a name: filler leads to a
directory, and so does `..` in a **rooted** tree, where whatever stands somewhere stands in a
directory. Every run keeps a tree rooted (`Rooted.run`).
-/

namespace WaveLayout

open Text

/-! ## Rooted trees -/

namespace FileTree

variable {tree after : FileTree} {path reference : Path} {location directory : Location}

/-- Whatever stands in the tree stands in a directory. -/
def Rooted (tree : FileTree) : Prop :=
  ∀ name directory, (tree.entry? (name :: directory)).isSome →
    tree.entry? directory = some .directory

theorem rooted_of_forall_entries
    (h : ∀ entry ∈ tree.entries, tree.entry? entry.1.tail = some .directory) : tree.Rooted := by
  intro name directory hsome
  obtain ⟨what, hwhat⟩ := Option.isSome_iff_exists.1 hsome
  rw [entry?_eq_lookup (List.cons_ne_nil name directory), List.lookup_eq_some_iff] at hwhat
  obtain ⟨front, back, hentries, -⟩ := hwhat
  exact h (name :: directory, what) (by simp [hentries])

theorem Rooted.of_changesOnlyAt {allowed : Path → Prop} (h : tree.Rooted)
    (hc : ChangesOnlyAt allowed tree after) : after.Rooted := by
  intro name directory hsome
  rw [hc.sameDirectories.directory_iff]
  by_cases htarget : ∃ path, allowed path ∧ tree.target path = .ok (name :: directory)
  · obtain ⟨path, -, ht⟩ := htarget
    obtain ⟨-, place, last, -, hplace, -, -, -, -, heq⟩ := target_eq_ok_iff.1 ht
    obtain ⟨-, rfl⟩ := List.cons.inj heq
    exact hplace
  · have hsame := hc.entry?_eq (name :: directory) fun path hp ht => htarget ⟨path, hp, ht⟩
    exact h name directory (hsame ▸ hsome)

/-- **Runs keep trees rooted.** -/
theorem Rooted.run {α : Type} (h : tree.Rooted) (job : Job α) : (job.run tree).tree.Rooted := by
  have hconfined : job.Confined fun _ => True := by
    induction job with
    | done value => trivial
    | read path next ih => exact ih
    | write path text next ih => exact ⟨trivial, ih⟩
    | remove path next ih => exact ⟨trivial, ih⟩
    | say event next ih => exact ih
  exact h.of_changesOnlyAt (hconfined.changesOnlyAt tree)

/-! ## The directory of a file -/

/-- The path leads to a file in the directory. -/
def StandsIn (tree : FileTree) (path : Path) (directory : Location) : Prop :=
  ∃ name content, tree.locateFrom tree.workingDirectory path = .ok (name :: directory) ∧
    tree.entry? (name :: directory) = some (.file content)

theorem exists_standsIn_of_read {text : Text} (h : tree.read path = .ok text) :
    ∃ directory, tree.StandsIn path directory := by
  obtain ⟨location, hl, he⟩ := read_eq_ok_iff.1 h
  cases location with
  | nil => cases he
  | cons name directory => exact ⟨directory, name, .text text, hl, he⟩

/-- **The parent leads to the directory of the file.** -/
theorem StandsIn.exists_parent (hrooted : tree.Rooted) (h : tree.StandsIn path directory) :
    ∃ parent, path.parent? = some parent ∧ tree.NamesDirectory parent directory := by
  obtain ⟨name, content, hl, he⟩ := h
  obtain ⟨-, hwalk⟩ := locateFrom_eq_ok_iff.1 hl
  obtain ⟨before, last, hpieces⟩ :=
    List.eq_nil_or_concat' path.pieces |>.resolve_left (List.splitOn_ne_nil _ _)
  rw [hpieces, walk_concat_eq_ok_iff] at hwalk
  obtain ⟨place, hbefore, hstep⟩ := hwalk
  obtain ⟨hplace, hcase⟩ := step_eq_ok_iff.1 hstep
  split at hcase
  · rw [hcase, hplace] at he
    cases he
  · next hfiller =>
    split at hcase
    · -- Above a directory stands a directory, so `..` leads to no file.
      obtain ⟨below, hbelow⟩ : ∃ below, place = below :: name :: directory := by
        cases place with
        | nil => cases hcase
        | cons below above => exact ⟨below, congrArg (below :: ·) hcase.symm⟩
      have hdirectory := hrooted below (name :: directory) (by rw [← hbelow, hplace]; rfl)
      rw [hdirectory] at he
      cases he
    · obtain ⟨-, heq, -⟩ := hcase
      obtain ⟨-, rfl⟩ := List.cons.inj heq
      exact namesDirectory_parent hpieces hfiller hbefore hplace

/-! ## Opening a reference -/

theorem byteLength_append (s t : Text) :
    byteLength (s ++ t) = byteLength s + byteLength t := by
  induction s with
  | nil => simp [byteLength]
  | cons c s ih =>
    simp only [byteLength, List.cons_append, List.foldr_cons] at ih ⊢
    omega

/-- The resolved reference ends with the reference. In front of it stands no character but a slash
that is not in the path of the file. -/
theorem text_resolve (referrer reference : Path) :
    ∃ front, (referrer.resolve reference).text = front ++ reference.text ∧
      ∀ c ∈ front, c ∈ referrer.text ∨ c = '/' := by
  unfold Path.resolve
  by_cases habsolute : reference.isAbsolute = true
  · rw [if_pos habsolute]
    exact ⟨[], rfl, nofun⟩
  · rw [if_neg habsolute]
    cases hparent : referrer.parent? with
    | none => exact ⟨[], rfl, nofun⟩
    | some parent =>
      obtain ⟨separator, htext, hseparator⟩ :=
        Path.text_join parent (by simpa using habsolute : reference.isAbsolute = false)
      refine ⟨parent.text ++ separator, htext, ?_⟩
      intro c hc
      rcases List.mem_append.1 hc with hc | hc
      · exact .inl ((Path.text_parent_isPrefix hparent).subset hc)
      · rcases hseparator with rfl | rfl
        · cases hc
        · exact .inr (List.mem_singleton.1 hc)

/-- Why the system refuses a path that is too long. -/
def refusal (reference : Path) : FileError :=
  if '\x00' ∈ reference.text then .nulInPath else .nameTooLong

theorem check_resolve {referrer reference : Path} (hreferrer : check referrer = .ok ())
    (hne : reference.text ≠ []) :
    check (referrer.resolve reference) =
      if byteLength (referrer.resolve reference).text ≤ maxPathLength then check reference
      else .error (refusal reference) := by
  have hnul : '\x00' ∉ referrer.text := by
    intro hm
    rw [check, if_pos hm] at hreferrer
    cases hreferrer
  obtain ⟨front, htext, hfront⟩ := text_resolve referrer reference
  have hmem : '\x00' ∈ (referrer.resolve reference).text ↔ '\x00' ∈ reference.text := by
    rw [htext, List.mem_append, or_iff_right]
    intro hm
    exact (hfront _ hm).elim hnul (by decide)
  have hlength : byteLength reference.text ≤ byteLength (referrer.resolve reference).text := by
    rw [htext, byteLength_append]
    omega
  have hne' : (referrer.resolve reference).text ≠ [] := by simp [htext, hne]
  unfold check refusal
  simp only [hmem, hne, hne', if_false]
  by_cases hm : '\x00' ∈ reference.text
  · simp [hm]
  · by_cases hlong : byteLength (referrer.resolve reference).text ≤ maxPathLength
    · simp [hm, Nat.not_lt.2 hlong, Nat.not_lt.2 (hlength.trans hlong), hlong]
    · simp [hm, Nat.not_le.1 hlong, hlong]

/-- Opening the path is opening the reference from the directory, unless the path is too long for
the system. -/
structure OpensFrom (tree : FileTree) (directory : Location) (reference path : Path) : Prop where
  locate_eq : tree.locateFrom tree.workingDirectory path =
    if byteLength path.text ≤ maxPathLength then tree.locateFrom directory reference
    else .error (refusal reference)
  read_eq : tree.read path =
    if byteLength path.text ≤ maxPathLength then tree.readFrom directory reference
    else .error (refusal reference)

/-- **References are opened from the directory of their file.** -/
theorem StandsIn.opensFrom (hrooted : tree.Rooted) {referrer : Path}
    (h : tree.StandsIn referrer directory) (hne : reference.text ≠ []) :
    tree.OpensFrom directory reference (referrer.resolve reference) := by
  have hwalk : tree.walk (origin tree.workingDirectory (referrer.resolve reference))
      (referrer.resolve reference).pieces =
        tree.walk (origin directory reference) reference.pieces := by
    cases habsolute : reference.isAbsolute with
    | true =>
      rw [Path.resolve, if_pos habsolute, origin, origin, if_pos habsolute, if_pos habsolute]
    | false =>
      obtain ⟨parent, hparent, hdirectory⟩ := h.exists_parent hrooted
      have hresolve : referrer.resolve reference = parent.join reference := by
        simp [Path.resolve, habsolute, hparent]
      rw [hresolve, walk_join hdirectory habsolute, origin, habsolute, if_neg Bool.false_ne_true]
  have hcheck : check referrer = .ok () := by
    obtain ⟨name, content, hl, -⟩ := h
    exact (locateFrom_eq_ok_iff.1 hl).1
  have hlocate : tree.locateFrom tree.workingDirectory (referrer.resolve reference) =
      if byteLength (referrer.resolve reference).text ≤ maxPathLength then
        tree.locateFrom directory reference
      else .error (refusal reference) := by
    rw [locateFrom, locateFrom, check_resolve hcheck hne, hwalk]
    split <;> rfl
  refine ⟨hlocate, ?_⟩
  rw [read, readFrom, readFrom, hlocate]
  split <;> rfl

end FileTree

/-! ## Discovered references -/

namespace Project

open FileTree

variable {tree : FileTree} {command moduleName : Text} {script projectFile : Path}
  {words : List Text} {sources : Sources}

theorem HoldsInvocation.ne_nil (h : HoldsInvocation tree command script words) :
    ∀ word ∈ words, word ≠ [] := by
  obtain ⟨text, -, before, line, after, -, ⟨rfl, -⟩, -⟩ := h
  exact fun word hw => (mem_words hw).1

theorem HoldsReferences.opensFrom (hrooted : tree.Rooted)
    (h : HoldsReferences tree command script moduleName projectFile) :
    ∃ directory words reference, tree.StandsIn script directory ∧
      HoldsInvocation tree command script words ∧ FollowsLast "-prj" words reference ∧
        tree.OpensFrom directory ⟨reference⟩ projectFile := by
  obtain ⟨words, reference, hinvocation, -, hfollows, hseen⟩ := h
  obtain rfl := Path.seenFrom_iff.1 hseen
  have hread := hinvocation
  obtain ⟨text, htext, -⟩ := hread
  obtain ⟨directory, hdirectory⟩ := exists_standsIn_of_read htext
  have hne : reference ≠ [] := by
    obtain ⟨before, after, rfl, -⟩ := hfollows
    exact hinvocation.ne_nil reference (by simp)
  exact ⟨directory, words, reference, hdirectory, hinvocation, hfollows,
    hdirectory.opensFrom hrooted hne⟩

theorem Discovers.opensFrom (hrooted : tree.Rooted)
    (h : Discovers tree command script (.ok sources)) :
    HoldsReferences tree command script sources.moduleName sources.projectFile ∧
      ∃ directory text reference, tree.StandsIn sources.projectFile directory ∧
        tree.read sources.projectFile = .ok text ∧
        IsLast (ListsSource sources.moduleName) (lines text) reference ∧
          tree.OpensFrom directory ⟨reference⟩ sources.sourceFile := by
  cases h with
  | @found moduleName text reference projectFile sourceFile hreferences hread hsource hseen =>
    obtain rfl := Path.seenFrom_iff.1 hseen
    obtain ⟨directory, hdirectory⟩ := exists_standsIn_of_read hread
    have hne : reference ≠ [] := by
      obtain ⟨before, line, after, -, hlists, -⟩ := hsource
      obtain ⟨kind, library, earlier, word, later, -, -, -, hname, -⟩ := hlists
      exact ne_nil_of_isSource hname
    exact ⟨hreferences, directory, text, reference, hdirectory, hread, hsource,
      hdirectory.opensFrom hrooted hne⟩

/-- **Joining as text agrees with looking up.** A file that is read stands in a directory. An
absolute reference in it stands for itself, and any other one that is not empty is opened from that
directory: the resolved path leads to the same place or fails for the same cause, unless it is too
long. This holds for the project file that a script refers to and for the source that the project
file refers to. -/
theorem references_open_from_directory (hrooted : tree.Rooted) :
    (∀ referrer text, tree.read referrer = .ok text →
      ∃ directory, tree.StandsIn referrer directory ∧ ∀ reference : Path,
        (reference.isAbsolute = true → referrer.resolve reference = reference) ∧
        (reference.text ≠ [] →
          tree.OpensFrom directory reference (referrer.resolve reference))) ∧
    (∀ command script moduleName projectFile,
      HoldsReferences tree command script moduleName projectFile →
        ∃ directory words reference, tree.StandsIn script directory ∧
          HoldsInvocation tree command script words ∧ FollowsLast "-prj" words reference ∧
            tree.OpensFrom directory ⟨reference⟩ projectFile) ∧
    ∀ command script sources,
      ((discover command script).outcome tree).value = .ok sources →
        HoldsReferences tree command script sources.moduleName sources.projectFile ∧
          ∃ directory text reference, tree.StandsIn sources.projectFile directory ∧
            tree.read sources.projectFile = .ok text ∧
            IsLast (ListsSource sources.moduleName) (lines text) reference ∧
              tree.OpensFrom directory ⟨reference⟩ sources.sourceFile := by
  refine ⟨?_, ?_, ?_⟩
  · intro referrer text hread
    obtain ⟨directory, hdirectory⟩ := exists_standsIn_of_read hread
    refine ⟨directory, hdirectory, fun reference => ⟨fun habsolute => ?_, fun hne => ?_⟩⟩
    · rw [Path.resolve, if_pos habsolute]
    · exact hdirectory.opensFrom hrooted hne
  · intro command script moduleName projectFile hreferences
    exact hreferences.opensFrom hrooted
  · intro command script sources hok
    exact (hok ▸ discovers_value tree command script).opensFrom hrooted

/-- A script in a directory below the working directory, and a project file beside that
directory. -/
def nestedTree : FileTree where
  entries :=
    [([("sim" : Text)], .directory),
     (["run.sh", "sim"], .file (.text "xelab m -prj ../top.prj\n")),
     ([("top.prj" : Text)], .file (.text "verilog work m.v\n"))]
  workingDirectory := []

theorem rooted_nestedTree : nestedTree.Rooted := rooted_of_forall_entries (by decide)

/-- A reference that starts with `..` is opened from the directory of the script. -/
theorem reference_above_script_opened :
    nestedTree.Rooted ∧ nestedTree.read ⟨"sim/.//run.sh"⟩ = .ok "xelab m -prj ../top.prj\n" ∧
      ∃ directory, nestedTree.StandsIn ⟨"sim/.//run.sh"⟩ directory ∧
        nestedTree.OpensFrom directory ⟨"../top.prj"⟩ ⟨"sim/../top.prj"⟩ := by
  have hread : nestedTree.read ⟨"sim/.//run.sh"⟩ = .ok "xelab m -prj ../top.prj\n" := by
    decide +kernel
  have hresolve : Path.resolve ⟨"sim/.//run.sh"⟩ ⟨"../top.prj"⟩ = ⟨"sim/../top.prj"⟩ := by
    decide +kernel
  obtain ⟨directory, hdirectory, hopens⟩ :=
    (references_open_from_directory rooted_nestedTree).1 _ _ hread
  exact ⟨rooted_nestedTree, hread, directory, hdirectory,
    hresolve ▸ (hopens ⟨"../top.prj"⟩).2 (by decide)⟩

/-! ## Long references -/

/-- A reference that stays in the directory for a number of steps before it leaves it. -/
def lingeringReference (steps : Nat) : Path :=
  ⟨(List.replicate steps ("./" : Text)).flatten ++ "../top.prj"⟩

theorem byteLength_lingeringReference (steps : Nat) :
    byteLength (lingeringReference steps).text = 2 * steps + 10 := by
  have hend : byteLength "../top.prj" = 10 := by decide
  have hstep : byteLength "./" = 2 := by decide
  unfold lingeringReference
  induction steps with
  | zero => exact hend
  | succ steps ih =>
    simp only [List.replicate_succ, List.flatten_cons, List.append_assoc] at ih ⊢
    rw [byteLength_append, ih, hstep]
    omega

theorem pieces_lingeringReference (steps : Nat) :
    (lingeringReference steps).pieces =
      List.replicate steps ['.'] ++ ([['.', '.'], "top.prj"] : List Text) := by
  unfold lingeringReference Path.pieces
  induction steps with
  | zero => decide
  | succ steps ih =>
    rw [List.replicate_succ, List.flatten_cons, List.append_assoc, List.replicate_succ,
      List.cons_append, ← ih]
    exact List.splitOn_append_cons_self ['.'] _

theorem isAbsolute_lingeringReference (steps : Nat) :
    (lingeringReference steps).isAbsolute = false := by
  cases steps <;> rfl

theorem text_lingeringReference_ne_nil (steps : Nat) : (lingeringReference steps).text ≠ [] :=
  List.append_ne_nil_of_right_ne_nil _ (by decide)

theorem locateFrom_lingeringReference {steps : Nat} (h : 2 * steps + 10 ≤ maxPathLength) :
    nestedTree.locateFrom [("sim" : Text)] (lingeringReference steps) =
      .ok [("top.prj" : Text)] := by
  have hnul : '\x00' ∉ (lingeringReference steps).text := by
    unfold lingeringReference
    simp
  have hstay : ∀ n, nestedTree.walk [("sim" : Text)] (List.replicate n ['.']) =
      .ok [("sim" : Text)] := by
    intro n
    induction n with
    | zero => rfl
    | succ n ih => exact walk_cons_eq_ok_iff.2 ⟨_, by decide, ih⟩
  refine locateFrom_eq_ok_iff.2 ⟨?_, ?_⟩
  · rw [check, if_neg hnul, if_neg (text_lingeringReference_ne_nil steps),
      byteLength_lingeringReference, if_neg (Nat.not_lt.2 h)]
  · rw [origin, isAbsolute_lingeringReference, if_neg Bool.false_ne_true,
      pieces_lingeringReference, walk_append (hstay steps)]
    decide

theorem byteLength_resolve_lingeringReference (steps : Nat) :
    byteLength (Path.resolve ⟨"sim/run.sh"⟩ (lingeringReference steps)).text = 2 * steps + 14 := by
  have hparent : Path.parent? ⟨"sim/run.sh"⟩ = some ⟨"sim"⟩ := by decide +kernel
  have hfront : byteLength "sim/" = 4 := by decide
  have htext : (Path.resolve ⟨"sim/run.sh"⟩ (lingeringReference steps)).text =
      ("sim/" : Text) ++ (lingeringReference steps).text := by
    rw [Path.resolve, isAbsolute_lingeringReference, if_neg Bool.false_ne_true, hparent]
    dsimp only
    rw [Path.join, isAbsolute_lingeringReference, if_neg Bool.false_ne_true, if_neg (by decide)]
    rfl
  rw [htext, byteLength_append, hfront, byteLength_lingeringReference]
  omega

/-- **A joined path can be too long.** Not every reference that can be opened from the directory of
its file is opened by the joined path. -/
theorem long_path_refused :
    ¬ ∀ (tree : FileTree) (referrer : Path) (text : Text), tree.Rooted →
      tree.read referrer = .ok text → ∃ directory, tree.StandsIn referrer directory ∧
        ∀ reference : Path, reference.isAbsolute = false → reference.text ≠ [] →
          tree.read (referrer.resolve reference) = tree.readFrom directory reference := by
  intro hall
  have hread : nestedTree.read ⟨"sim/run.sh"⟩ = .ok "xelab m -prj ../top.prj\n" := by
    decide +kernel
  have hlocate : nestedTree.locateFrom nestedTree.workingDirectory ⟨"sim/run.sh"⟩ =
      .ok ["run.sh", "sim"] := by
    decide +kernel
  obtain ⟨directory, hdirectory, hsame⟩ := hall nestedTree _ _ rooted_nestedTree hread
  obtain rfl : directory = [("sim" : Text)] := by
    obtain ⟨name, content, hl, -⟩ := hdirectory
    rw [hlocate] at hl
    exact (List.cons.inj (Except.ok.inj hl)).2.symm
  have hne := text_lingeringReference_ne_nil 2042
  have hopened : nestedTree.readFrom [("sim" : Text)] (lingeringReference 2042) =
      .ok "verilog work m.v\n" := by
    rw [readFrom, locateFrom_lingeringReference (by decide)]
    rfl
  -- 4098 bytes where 4095 are the most, although the reference itself has 4094.
  have hlong : ¬ byteLength (Path.resolve ⟨"sim/run.sh"⟩ (lingeringReference 2042)).text ≤
      maxPathLength := by
    rw [byteLength_resolve_lingeringReference]
    decide
  have hrefused := (hdirectory.opensFrom rooted_nestedTree hne).read_eq
  rw [if_neg hlong, hsame _ (isAbsolute_lingeringReference 2042) hne, hopened] at hrefused
  cases hrefused

end Project

end WaveLayout

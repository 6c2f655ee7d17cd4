import AlertAudit.Command.FileTree
import Mathlib.Data.List.Nodup
import Mathlib.Data.List.TakeWhile
import Mathlib.Data.String.Basic

/-!
The rule files below a directory. Each directory is put in the order of its own entries, and what
was found below an entry takes the entry's place, so that siblings such as `a`, `a.yml` and `b` are
compared as whole names and never as beginnings of paths.

The main statement is `ruleFiles_of_listing`: the files that are found are those at any depth whose
names have one of the two endings, and they come in strictly ascending order of their paths, name by
name.
-/

set_option autoImplicit false

namespace AlertAudit.Command

/-! ### Names of rule files -/

/-- The name ends in `.yml` or `.yaml` behind at least one other character. -/
def HasRuleExtension (name : String) : Prop :=
  ∃ stem, stem ≠ "" ∧ (name = stem ++ ".yml" ∨ name = stem ++ ".yaml")

/-- A name without a separator is the only one of its path. -/
theorem pathNames_of_notMem {name : String} (h : '/' ∉ name.toList) : pathNames name = [name] := by
  have hsplit : name.toList.splitOn '/' = [name.toList] := by
    refine List.splitOnP_eq_singleton fun c hc ↦ ?_
    exact beq_eq_false_iff_ne.mpr fun heq ↦ h (heq ▸ hc)
  rw [pathNames, hsplit, List.map_singleton, String.ofList_toList]

/-- A single name is the name of a file unless it stands for no name or for a directory. -/
theorem fileName?_of_notMem {name : String} (h : '/' ∉ name.toList) :
    fileName? name = if name = "" ∨ name = "." ∨ name = ".." then none else some name := by
  rw [fileName?, pathNames_of_notMem h]
  by_cases hempty : name = "" <;> by_cases hdot : name = "." <;> by_cases hdots : name = ".." <;>
    simp [hempty, hdot, hdots]

/-- The extension is what stands behind the last dot of a name, which must not be its beginning. -/
theorem extension?_eq_some_iff {name ending : String} : extension? name = some ending ↔
    '.' ∉ ending.toList ∧ ∃ stem, stem ≠ "" ∧ name = stem ++ "." ++ ending := by
  rw [extension?]
  constructor
  · intro h
    have hsplit := List.takeWhile_append_dropWhile (p := (· ≠ '.')) (l := name.toList.reverse)
    have hhead := List.head?_dropWhile_not (· ≠ '.') name.toList.reverse
    set behind := name.toList.reverse.takeWhile (· ≠ '.') with hbehind
    rw [← hsplit, List.drop_left] at h
    split at h
    · next dot last front hdrop =>
      rw [hdrop] at hsplit hhead
      obtain rfl : dot = '.' := by simpa using hhead
      obtain rfl := Option.some.inj h
      refine ⟨fun hmem ↦ ?_, String.ofList (front.reverse ++ [last]), by simp, ?_⟩
      · rw [String.toList_ofList, List.mem_reverse, hbehind] at hmem
        exact absurd (List.mem_takeWhile_imp hmem) (by simp)
      · refine String.toList_inj.mp ?_
        rw [← List.reverse_reverse name.toList, ← hsplit]
        simp
    · exact absurd h (by simp)
  · rintro ⟨hending, stem, hstem, rfl⟩
    have hbackwards : (stem ++ "." ++ ending).toList.reverse =
        ending.toList.reverse ++ '.' :: stem.toList.reverse := by simp
    have htake : (stem ++ "." ++ ending).toList.reverse.takeWhile (· ≠ '.') =
        ending.toList.reverse := by
      rw [hbackwards, List.takeWhile_append_of_pos]
      · simp
      · intro c hc
        exact decide_eq_true fun h ↦ hending (h ▸ List.mem_reverse.mp hc)
    obtain ⟨c, rest, hrest⟩ : ∃ c rest, stem.toList.reverse = c :: rest := by
      refine List.exists_cons_of_ne_nil fun h ↦ hstem ?_
      simpa using h
    simp only [htake]
    rw [hbackwards, List.drop_left, hrest]
    simp

/-- A rule file has one of the two extensions. -/
theorem hasRuleExtension_iff {name : String} : HasRuleExtension name ↔
    extension? name = some "yml" ∨ extension? name = some "yaml" := by
  have hyml : '.' ∉ "yml".toList := by decide
  have hyaml : '.' ∉ "yaml".toList := by decide
  simp only [extension?_eq_some_iff, hyml, hyaml, not_false_eq_true, true_and, String.append_assoc,
    ← exists_or, ← and_or_left, HasRuleExtension]
  rfl

/-- A file is taken for a rule file by the extension of its name. -/
theorem isRuleFile_iff {name : String} (h : '/' ∉ name.toList) :
    isRuleFile name ↔ HasRuleExtension name := by
  rw [hasRuleExtension_iff, isRuleFile, fileName?_of_notMem h]
  split_ifs with hspecial
  · rcases hspecial with rfl | rfl | rfl <;> decide
  · rw [Option.bind_some]
    cases extension? name <;> simp

namespace FileTree

/-! ### What a directory holds -/

/-- The tree stands below a directory with some entries, at the end of a path of names. -/
inductive Holds : List (String × FileTree) → List String → FileTree → Prop
  | entry {entries : List (String × FileTree)} {name : String} {tree : FileTree} :
    (name, tree) ∈ entries → Holds entries [name] tree
  | inside {entries inner : List (String × FileTree)} {name : String} {names : List String}
    {tree : FileTree} : (name, .directory inner) ∈ entries → Holds inner names tree →
    Holds entries (name :: names) tree

/-- The entries have different names, each a single one, and so have the directories among them at
any depth. -/
inductive Listing : List (String × FileTree) → Prop
  | mk {entries : List (String × FileTree)} (nodup : (entries.map (·.1)).Nodup)
    (single : ∀ entry ∈ entries, '/' ∉ entry.1.toList)
    (inner : ∀ name inner, (name, directory inner) ∈ entries → Listing inner) : Listing entries

/-- Each entry is told with what is found in it. -/
theorem ruleFilesByName_eq_map (entries : List (String × FileTree)) :
    ruleFilesByName entries = entries.map fun entry ↦ (entry.1, ruleFilesAs entry.1 entry.2) := by
  induction entries with
  | nil => rw [ruleFilesByName, List.map_nil]
  | cons entry rest ih => rw [ruleFilesByName, ih, List.map_cons]

/-- The entries are put in the order of their names, with what was found in each in its place. -/
theorem ruleFiles_eq_flatMap (entries : List (String × FileTree)) : ruleFiles entries =
    (entries.mergeSort fun a b ↦ a.1 ≤ b.1).flatMap fun entry ↦ ruleFilesAs entry.1 entry.2 := by
  have hsort := List.map_mergeSort (l := entries)
    (r := fun a b ↦ a.1 ≤ b.1) (s := fun a b ↦ a.1 ≤ b.1)
    (f := fun entry ↦ (entry.1, ruleFilesAs entry.1 entry.2)) fun _ _ _ _ ↦ rfl
  rw [ruleFiles, inOrder, ruleFilesByName_eq_map, ← hsort, List.flatMap_map]

/-- What is found below a directory is found in one of its entries. -/
theorem mem_ruleFiles {entries : List (String × FileTree)} {f : FoundFile} :
    f ∈ ruleFiles entries ↔ ∃ name tree, (name, tree) ∈ entries ∧ f ∈ ruleFilesAs name tree := by
  simp only [ruleFiles_eq_flatMap, List.mem_flatMap, (List.mergeSort_perm entries _).mem_iff,
    Prod.exists]

/-- A file is found if it has the name of a rule file. -/
theorem mem_ruleFilesAs_file {name content : String} {f : FoundFile} :
    f ∈ ruleFilesAs name (.file content) ↔ isRuleFile name ∧ f = ⟨[name], content⟩ := by
  rw [ruleFilesAs]
  split <;> simp_all

/-- What is found in a directory is found below it, with its name in front. -/
theorem mem_ruleFilesAs_directory {name : String} {inner : List (String × FileTree)}
    {f : FoundFile} : f ∈ ruleFilesAs name (.directory inner) ↔
      ∃ names, f.names = name :: names ∧ ⟨names, f.content⟩ ∈ ruleFiles inner := by
  rw [ruleFilesAs, List.mem_map]
  constructor
  · rintro ⟨g, hg, rfl⟩
    exact ⟨g.names, rfl, hg⟩
  · rintro ⟨names, hnames, hmem⟩
    exact ⟨_, hmem, by rw [← hnames]⟩

/-- No path is empty. -/
theorem Holds.ne_nil {entries : List (String × FileTree)} {names : List String} {tree : FileTree}
    (h : Holds entries names tree) : names ≠ [] := by
  cases h <;> exact List.cons_ne_nil _ _

/-- A path that goes on has the last name of what it goes on with. -/
theorem Holds.getLast?_cons {entries : List (String × FileTree)} {names : List String}
    {tree : FileTree} (h : Holds entries names tree) (name : String) :
    (name :: names).getLast? = names.getLast? := by
  rw [List.getLast?_cons, List.getLast?_eq_some_getLast h.ne_nil, Option.getD_some]

/-- The files that are found below a directory are those at any depth with the name of a rule file,
each under its path. -/
theorem mem_ruleFiles_iff {entries : List (String × FileTree)} (h : Listing entries)
    {names : List String} {content : String} : ⟨names, content⟩ ∈ ruleFiles entries ↔
      Holds entries names (.file content) ∧ ∃ name ∈ names.getLast?, HasRuleExtension name := by
  induction h generalizing names with
  | @mk entries nodup single inner ih =>
    rw [mem_ruleFiles]
    constructor
    · rintro ⟨name, tree, hentry, hmem⟩
      cases tree with
      | file content' =>
        obtain ⟨hrule, heq⟩ := mem_ruleFilesAs_file.mp hmem
        obtain ⟨rfl, rfl⟩ := FoundFile.mk.inj heq
        exact ⟨.entry hentry, name, rfl, (isRuleFile_iff (single _ hentry)).mp hrule⟩
      | directory below =>
        obtain ⟨names, rfl, hbelow⟩ := mem_ruleFilesAs_directory.mp hmem
        obtain ⟨hholds, hrule⟩ := (ih name below hentry).mp hbelow
        exact ⟨.inside hentry hholds, by rwa [hholds.getLast?_cons]⟩
    · rintro ⟨hholds, hrule⟩
      cases hholds with
      | @entry _ name _ hentry =>
        obtain ⟨_, hlast, hrule⟩ := hrule
        obtain rfl := Option.some.inj hlast
        exact ⟨name, _, hentry, mem_ruleFilesAs_file.mpr
          ⟨(isRuleFile_iff (single _ hentry)).mpr hrule, rfl⟩⟩
      | @inside _ below name names _ hentry hholds =>
        rw [hholds.getLast?_cons] at hrule
        exact ⟨name, _, hentry, mem_ruleFilesAs_directory.mpr
          ⟨names, rfl, (ih name below hentry).mpr ⟨hholds, hrule⟩⟩⟩

/-! ### The order -/

/-- What is found in an entry has a path that begins with its name. -/
theorem exists_names_of_mem_ruleFilesAs {name : String} {tree : FileTree} {f : FoundFile}
    (h : f ∈ ruleFilesAs name tree) : ∃ names, f.names = name :: names := by
  cases tree with
  | file content =>
    obtain ⟨-, rfl⟩ := mem_ruleFilesAs_file.mp h
    exact ⟨[], rfl⟩
  | directory inner =>
    obtain ⟨names, hnames, -⟩ := mem_ruleFilesAs_directory.mp h
    exact ⟨names, hnames⟩

/-- In the order of names, entries with different names come in strictly ascending order. -/
theorem pairwise_mergeSort_of_nodup {α : Type} {parts : List (String × α)}
    (h : (parts.map (·.1)).Nodup) :
    (parts.mergeSort fun a b ↦ a.1 ≤ b.1).Pairwise fun a b ↦ a.1 < b.1 := by
  have hordered := @List.pairwise_mergeSort (String × α) (fun a b ↦ a.1 ≤ b.1)
    (fun a b c hab hbc ↦ decide_eq_true
      (le_trans (of_decide_eq_true hab) (of_decide_eq_true hbc)))
    (fun a b ↦ by simpa using le_total a.1 b.1) parts
  have hnodup : ((parts.mergeSort fun a b ↦ a.1 ≤ b.1).map (·.1)).Nodup :=
    ((List.mergeSort_perm parts _).map _).nodup_iff.mpr h
  refine (hordered.and (List.pairwise_map.mp hnodup)).imp fun {a b} hab ↦ ?_
  exact lt_of_le_of_ne (of_decide_eq_true hab.1) hab.2

/-- What is found in an entry is in ascending order. -/
theorem pairwise_ruleFilesAs {name : String} {tree : FileTree}
    (h : ∀ inner, tree = .directory inner →
      (ruleFiles inner).Pairwise fun f g ↦ f.names < g.names) :
    (ruleFilesAs name tree).Pairwise fun f g ↦ f.names < g.names := by
  cases tree with
  | file content =>
    rw [ruleFilesAs]
    split <;> simp
  | directory inner =>
    rw [ruleFilesAs, List.pairwise_map]
    exact (h inner rfl).imp fun hlt ↦ List.cons_lt_cons_iff.mpr (Or.inr ⟨rfl, hlt⟩)

/-- What is found below a directory comes in strictly ascending order. -/
theorem pairwise_ruleFiles {entries : List (String × FileTree)} (h : Listing entries) :
    (ruleFiles entries).Pairwise fun f g ↦ f.names < g.names := by
  induction h with
  | @mk entries nodup single inner ih =>
    rw [ruleFiles_eq_flatMap, List.pairwise_flatMap]
    constructor
    · rintro ⟨name, tree⟩ hentry
      rw [(List.mergeSort_perm entries _).mem_iff] at hentry
      exact pairwise_ruleFilesAs fun below hbelow ↦ ih name below (hbelow ▸ hentry)
    · refine (pairwise_mergeSort_of_nodup nodup).imp fun {a b} hlt f hf g hg ↦ ?_
      -- The first names decide, however the paths go on.
      obtain ⟨names, hnames⟩ := exists_names_of_mem_ruleFilesAs hf
      obtain ⟨names', hnames'⟩ := exists_names_of_mem_ruleFilesAs hg
      rw [hnames, hnames', List.cons_lt_cons_iff]
      exact Or.inl hlt

/-! ### The whole walk -/

/-- Under a path stands one tree. -/
theorem Holds.unique {entries : List (String × FileTree)} {names : List String}
    {tree tree' : FileTree} (hlisting : Listing entries) (h : Holds entries names tree)
    (h' : Holds entries names tree') : tree = tree' := by
  induction hlisting generalizing names with
  | @mk entries nodup single inner ih =>
    have hunique {name : String} {t t' : FileTree} (ht : (name, t) ∈ entries)
        (ht' : (name, t') ∈ entries) : t = t' :=
      congrArg Prod.snd (List.inj_on_of_nodup_map nodup ht ht' rfl)
    cases h with
    | entry hentry =>
      cases h' with
      | entry hentry' => exact hunique hentry hentry'
      | inside _ hbelow => exact absurd rfl hbelow.ne_nil
    | @inside _ below name names _ hentry hbelow =>
      cases h' with
      | entry _ => exact absurd rfl hbelow.ne_nil
      | inside hentry' hbelow' =>
        obtain rfl := FileTree.directory.inj (hunique hentry hentry')
        exact ih name below hentry hbelow hbelow'

/-- Below a directory are found exactly the files at any depth whose names have an extension of rule
files. They come in strictly ascending order of their paths, name by name, so that none comes twice.
A directory is never among them, though its name may be that of a rule file. -/
theorem ruleFiles_of_listing {entries : List (String × FileTree)} (h : Listing entries) :
    ((ruleFiles entries).map FoundFile.names).Pairwise (· < ·) ∧
    (∀ f, f ∈ ruleFiles entries ↔
      Holds entries f.names (.file f.content) ∧ ∃ name ∈ f.names.getLast?, HasRuleExtension name) ∧
    ∀ names inner, Holds entries names (.directory inner) →
      names ∉ (ruleFiles entries).map FoundFile.names := by
  refine ⟨List.pairwise_map.mpr (pairwise_ruleFiles h), fun _ ↦ mem_ruleFiles_iff h, ?_⟩
  intro names inner hholds hmem
  obtain ⟨f, hf, rfl⟩ := List.mem_map.mp hmem
  exact FileTree.noConfusion (hholds.unique h ((mem_ruleFiles_iff h).mp hf).1)

/-- Directories with the names of rule files, beside files whose paths begin like theirs. -/
def scattered : List (String × FileTree) :=
  [("x.yml", directory [("notes.txt", file ""), ("d.yaml", file "4"), (".yml", file "")]),
    ("a.yml", file "2"), ("b", directory [("c.yml", directory [("c.yml", file "3")])]),
    ("a", directory [("b.yml", file "1")])]

/-- The names in each of the directories are different. -/
theorem listing_scattered : Listing scattered := by
  have hdeep : Listing [("c.yml", file "3")] := .mk (by decide) (by decide) (by simp)
  have hxs : Listing [("notes.txt", file ""), ("d.yaml", file "4"), (".yml", file "")] :=
    .mk (by decide) (by decide) (by simp)
  have hbs : Listing [("c.yml", directory [("c.yml", file "3")])] :=
    .mk (by decide) (by decide) (by simpa using hdeep)
  have has : Listing [("b.yml", file "1")] := .mk (by decide) (by decide) (by simp)
  refine .mk (by decide) (by decide) fun name inner hmem ↦ ?_
  simp only [scattered, List.mem_cons, Prod.mk.injEq, directory.injEq, reduceCtorEq, and_false,
    List.not_mem_nil, or_false, false_or] at hmem
  rcases hmem with ⟨-, rfl⟩ | ⟨-, rfl⟩ | ⟨-, rfl⟩
  exacts [hxs, hbs, has]

/-- The files with such names are found in the order of their paths, and a directory with such a
name is not among them. -/
theorem ruleFiles_of_listing_scattered : Listing scattered ∧
    ((ruleFiles scattered).map FoundFile.names).Pairwise (· < ·) ∧
    ⟨["b", "c.yml", "c.yml"], "3"⟩ ∈ ruleFiles scattered ∧
    ["b", "c.yml"] ∉ (ruleFiles scattered).map FoundFile.names := by
  obtain ⟨hordered, hfound, hdirectory⟩ := ruleFiles_of_listing listing_scattered
  have hentry : ("b", directory [("c.yml", directory [("c.yml", file "3")])]) ∈ scattered := by
    simp [scattered]
  have hinner : Holds scattered ["b", "c.yml"] (directory [("c.yml", file "3")]) :=
    .inside hentry (.entry List.mem_cons_self)
  have hfile : Holds scattered ["b", "c.yml", "c.yml"] (file "3") :=
    .inside hentry (.inside List.mem_cons_self (.entry List.mem_cons_self))
  exact ⟨listing_scattered, hordered,
    (hfound _).mpr ⟨hfile, "c.yml", rfl, "c", by decide, Or.inl rfl⟩, hdirectory _ _ hinner⟩

end FileTree

end AlertAudit.Command

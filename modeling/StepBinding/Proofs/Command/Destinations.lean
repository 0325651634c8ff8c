import Mathlib
import StepBinding.Command

/-! What lowering the files below a directory changes. Directories stay directories, so a path keeps
leading where it led, and contents change only where the destinations of sources lead. Only a
destination that is its own source is refused: it may be another source, and the sources in one
directory that have one stem have one destination. -/

namespace StepBinding

namespace FileTree

variable {D : Path → Prop} {t t' t'' : FileTree} {p : Path} {place here parts : List String}
  {text : String} {follow : Bool} {n : Nat}

/-- What was a directory still is one and has no other content. -/
structure Extends (t t' : FileTree) : Prop where
  root : t'.root = t.root
  links : t'.links = t.links
  directory : ∀ place, t.isDirectoryAt place →
    t'.isDirectoryAt place ∧ t'.content? place = t.content? place

/-- Moreover, contents differ only where some paths lead. -/
structure Writes (D : Path → Prop) (t t' : FileTree) : Prop extends Extends t t' where
  changed : ∀ place, t'.content? place ≠ t.content? place → ∃ d, D d ∧ t'.place? d = some place

theorem Extends.walkWith_eq {through through' :
    List String → List String → Except FileError (List String)}
    (h : Extends t t')
    (hthrough : ∀ here parts, through here parts = .ok place → through' here parts = .ok place)
    (hw : t.walkWith follow through here parts = .ok place) :
    t'.walkWith follow through' here parts = .ok place := by
  induction parts generalizing here with
  | nil => exact hw
  | cons part parts ih =>
    rw [walkWith] at hw ⊢
    cases hd : t.isDirectoryAt here with
    | false => simp [hd] at hw
    | true =>
      simp only [hd, (h.directory here hd).1, Bool.not_true, Bool.false_eq_true, if_false, h.links]
        at hw ⊢
      by_cases hpart : (decide (part = "") || decide (part = ".")) = true
      · rw [if_pos hpart] at hw ⊢
        exact ih hw
      rw [if_neg hpart] at hw ⊢
      by_cases hup : part = ".."
      · rw [if_pos hup] at hw ⊢
        exact ih hw
      rw [if_neg hup] at hw ⊢
      by_cases hlast : (parts.isEmpty && !follow) = true
      · rwa [if_pos hlast] at hw ⊢
      rw [if_neg hlast] at hw ⊢
      cases hlink : t.links.lookup (here ++ [part]) with
      | none =>
        rw [hlink] at hw
        exact ih hw
      | some target =>
        rw [hlink] at hw
        exact hthrough _ _ hw

theorem Extends.walk_eq (h : Extends t t') (hw : t.walk follow n here parts = .ok place) :
    t'.walk follow n here parts = .ok place := by
  induction n generalizing here parts with
  | zero => exact h.walkWith_eq (fun _ _ hthrough => by cases hthrough) hw
  | succ n ih => exact h.walkWith_eq (fun _ _ => ih) hw

theorem Extends.resolved?_eq (h : Extends t t') (p : Path) : t'.resolved? p = t.resolved? p := by
  rw [resolved?, origin, h.root, h.links, resolved?, origin]

theorem place?_eq_some :
    t.place? p = some place ↔ t.walk true maxLinks (t.origin p) p.parts = .ok place := by
  rw [place?, FileTree.place]
  cases t.walk true maxLinks (t.origin p) p.parts <;> simp [Except.toOption]

theorem Extends.place?_eq (h : Extends t t') (hp : t.place? p = some place) :
    t'.place? p = some place := by
  rw [place?_eq_some] at hp ⊢
  rw [origin, h.root]
  exact h.walk_eq hp

theorem Extends.isFile_eq (h : Extends t t') (hd : t.isDirectory p) : t'.isFile p = t.isFile p := by
  cases hp : t.place? p with
  | none => simp [isDirectory, hp] at hd
  | some place =>
    simp only [isDirectory, hp, Option.any_some] at hd
    simp only [isFile, hp, h.place?_eq hp, isFileAt, Option.any_some, (h.directory place hd).2]

theorem Writes.refl : Writes D t t := ⟨⟨rfl, rfl, fun _ h => ⟨h, rfl⟩⟩, fun _ h => absurd rfl h⟩

theorem Writes.trans (h : Writes D t t') (h' : Writes D t' t'') : Writes D t t'' where
  root := h'.root.trans h.root
  links := h'.links.trans h.links
  directory place hd :=
    have hstep := h.directory place hd
    have hlast := h'.directory place hstep.1
    ⟨hlast.1, hlast.2.trans hstep.2⟩
  changed place hne := by
    by_cases hlast : t''.content? place = t'.content? place
    · obtain ⟨d, hd, hplace⟩ := h.changed place (hlast ▸ hne)
      exact ⟨d, hd, h'.place?_eq hplace⟩
    · exact h'.changed place hlast

theorem Writes.mono {D' : Path → Prop} (h : Writes D t t') (hD : ∀ d, D d → D' d) : Writes D' t t' where
  toExtends := h.toExtends
  changed place hne := by
    obtain ⟨d, hd, hplace⟩ := h.changed place hne
    exact ⟨d, hD d hd, hplace⟩

theorem content?_put (other : List String) :
    { t with files := put place text t.files }.content? other
      = if other = place then some text else t.content? other := by
  simp only [content?]
  induction t.files with
  | nil => grind [put, List.lookup]
  | cons f fs ih => grind [put, List.lookup]

theorem isDirectoryAt_put (h : t.isDirectoryAt here) :
    { t with files := put place text t.files }.isDirectoryAt here := by
  have hany (P : List String → Bool) (fs : List (List String × String))
      (h : fs.any fun f => P f.1) : (put place text fs).any fun f => P f.1 := by
    fun_induction put place text fs <;> grind
  simp only [isDirectoryAt, Bool.or_eq_true] at h ⊢
  exact h.imp_left (.imp_right (hany (fun q => here.isPrefixOf q && decide (here.length < q.length)) _))

theorem writes_withFile (hd : D p) (h : t.withFile p text = .ok t') : Writes D t t' := by
  simp only [withFile, bind, Except.bind] at h
  split at h
  · cases h
  · rename_i place hplace
    split at h
    · cases h
    · rename_i hnot
      cases h
      have hext : Extends t { t with files := put place text t.files } := by
        refine ⟨rfl, rfl, fun other hother => ⟨isDirectoryAt_put hother, ?_⟩⟩
        rw [content?_put, if_neg]
        rintro rfl
        exact hnot hother
      refine ⟨hext, fun other hother => ⟨p, hd, ?_⟩⟩
      rw [content?_put] at hother
      split at hother
      · rename_i heq
        rw [heq]
        exact hext.place?_eq (place?_eq_some.2 hplace)
      · cases hother rfl

theorem writes_withDirectory (h : t.withDirectory p = .ok t') : Writes D t t' := by
  simp only [withDirectory, bind, Except.bind] at h
  split at h
  · cases h
  · split at h
    · cases h
    · cases h
      refine ⟨⟨rfl, rfl, fun other hother => ⟨?_, rfl⟩⟩, fun _ hne => absurd rfl hne⟩
      simp only [isDirectoryAt, Bool.or_eq_true, List.contains_cons] at hother ⊢
      grind

end FileTree

namespace Command

open FileTree

section Keeps

variable {ε σ α β : Type} {I : σ → Prop} {x : EStateM ε σ α} {f : α → EStateM ε σ β} {a : α} {e : ε}

/-- The state in which an action ends, well or not. -/
def after : EStateM.Result ε σ α → σ
  | .ok _ s | .error _ s => s

/-- An action that keeps a property of states, however it ends. -/
class Keeps (I : σ → Prop) (x : EStateM ε σ α) : Prop where
  ends : ∀ s, I s → I (after (x s))

theorem bind_of_ok {s s' : σ} (h : x s = .ok a s') : (x >>= f) s = f a s' := by
  change EStateM.bind x f s = _
  rw [EStateM.bind, h]

theorem exists_of_bind {s s'' : σ} {b : β} (h : (x >>= f) s = .ok b s'') :
    ∃ a s', x s = .ok a s' ∧ f a s' = .ok b s'' := by
  change EStateM.bind x f s = _ at h
  unfold EStateM.bind at h
  split at h
  · rename_i a s' hx
    exact ⟨a, s', hx, h⟩
  · cases h

theorem after_bind {s : σ} (hx : Keeps I x) (hs : I s)
    (hf : ∀ a s', x s = .ok a s' → I s' → I (after (f a s'))) : I (after ((x >>= f) s)) := by
  have hends := hx.ends s hs
  cases h : x s with
  | ok a s' =>
    rw [h] at hends
    rw [bind_of_ok h]
    exact hf a s' h hends
  | error e s' =>
    rw [h] at hends
    change I (after (EStateM.bind x f s))
    rwa [EStateM.bind, h]

theorem Keeps.bind (hx : Keeps I x) (hf : ∀ a, Keeps I (f a)) : Keeps I (x >>= f) :=
  ⟨fun _ hs => after_bind hx hs fun a s' _ => (hf a).ends s'⟩

instance [Keeps I x] [∀ a, Keeps I (f a)] : Keeps I (x >>= f) :=
  .bind inferInstance fun _ => inferInstance

instance : Keeps I (pure a : EStateM ε σ α) := ⟨fun _ => id⟩

instance : Keeps I (throw e : EStateM ε σ α) := ⟨fun _ => id⟩

instance : Keeps I (get : EStateM ε σ σ) := ⟨fun _ => id⟩

instance (c : Prop) [Decidable c] (y : EStateM ε σ α) [Keeps I x] [Keeps I y] :
    Keeps I (if c then x else y) := by
  split <;> infer_instance

end Keeps

variable {D : Path → Prop} {t : FileTree}

theorem keeps_change {f : FileTree → Except FileError FileTree}
    (hf : ∀ {t t'}, f t = .ok t' → Writes D t t') : Keeps (Writes D t) (change f) := by
  refine ⟨fun t1 h => ?_⟩
  rw [change]
  split
  · exact h.trans (hf ‹_›)
  · exact h

theorem keeps_makeDirectory (p : Path) : Keeps (Writes D t) (makeDirectory p) := by
  have hone : Keeps (Writes D t) (makeOne p) := by
    refine keeps_change fun h => ?_
    split at h
    · cases h
      exact .refl
    · exact writes_withDirectory h
  rw [makeDirectory]
  split
  · have := keeps_makeDirectory p.parent
    infer_instance
  · infer_instance
termination_by p.parts.length
decreasing_by
  rename_i hp
  have := List.length_pos_iff.2 hp
  simp only [Path.parent, List.length_dropLast]
  omega

/-- An action that writes only where some paths lead. -/
abbrev Confined (D : Path → Prop) (t : FileTree) {α : Type} (x : Action α) : Prop :=
  Keeps (fun c : Console => Writes D t c.tree) x

instance (line : String) : Confined D t (complain line) := ⟨fun _ => id⟩

instance (s : String) : Confined D t (print s) := ⟨fun _ => id⟩

instance : Confined D t files := ⟨fun _ => id⟩

instance (source : SourceText) (ds : List Diagnostic) : Confined D t (report source ds) := by
  unfold report
  induction ds with
  | nil => exact ⟨fun _ => id⟩
  | cons d ds ih => exact .bind inferInstance fun _ => ih

instance (path : Path) (s : Settings) : Confined D t (transformFile path s) := by
  unfold transformFile sourceOf fail
  refine .bind (.bind inferInstance fun t => ?_) fun source => ?_
  all_goals split <;> infer_instance

instance {α : Type} (x : Except Settings.Problem α) : Confined D t (settled x) := by
  unfold settled refuse fail
  split
  · infer_instance
  · split <;> infer_instance

instance (path : Path) (target stem : Option String) : Confined D t (settingsFor path target stem) := by
  unfold settingsFor
  infer_instance

instance (path : Path) (s : Settings) : Confined D t (sourceFiles path s) := by
  unfold sourceFiles fail
  refine .bind inferInstance fun t => ?_
  split
  · infer_instance
  split
  · infer_instance
  split <;> infer_instance

theorem confined_filed {change : Change Unit} (h : Keeps (Writes D t) change) :
    Confined D t (filed change) := by
  refine ⟨fun c hc => ?_⟩
  have hends := h.ends c.tree hc
  unfold filed
  cases hchange : change c.tree <;>
  · rw [hchange] at hends
    exact hends

theorem confined_files {α : Type} {f : FileTree → Action α}
    (hf : ∀ t', Writes D t t' → Confined D t (f t')) : Confined D t (files >>= f) :=
  ⟨fun c hc => (hf c.tree hc).ends c hc⟩

variable {quiet checkOnly : Bool} {root source dest : Path} {code suffix name name' : String}
  {out : Option Path} {s : Settings} {sources : List Path} {ds ds' : List String}

theorem sameFile?_eq {t' : FileTree} (h : Extends t t') (p q : Path) :
    sameFile? t' p q = sameFile? t p q := by
  simp only [sameFile?, h.resolved?_eq]

/-- Code is written unless its destination is its source. -/
theorem confined_writeCode (hd : sameFile? t dest source = some false → D dest) :
    Confined D t (writeCode quiet source dest code) := by
  refine confined_files fun t' ht => ?_
  rw [sameFile?_eq ht.toExtends]
  cases h : sameFile? t dest source with
  | none => exact ⟨fun _ => id⟩
  | some same =>
    cases same with
    | true => infer_instance
    | false =>
      have hmake : Confined D t (filed (makeDirectory dest.parent)) :=
        confined_filed (keeps_makeDirectory dest.parent)
      have hwrite : Confined D t (filed (write dest code)) :=
        confined_filed (keeps_change (writes_withFile (hd h)))
      unfold say
      infer_instance

/-- The paths to which the code of some sources goes, their own excepted. -/
def Destined (t : FileTree) (root : Path) (out : Option Path) (s : Settings) (sources : List Path)
    (dest : Path) : Prop :=
  ∃ p ∈ sources, destination? t p root out s.outputSuffix = some dest ∧
    sameFile? t dest p = some false

theorem confined_lowerFile (hdir : t.isDirectory root) (hfile : t.isFile root = false)
    (hmem : source ∈ sources) :
    Confined (Destined t root out s sources) t (lowerFile quiet checkOnly root out s source) := by
  refine .bind inferInstance fun result => ?_
  split
  · infer_instance
  split
  · infer_instance
  refine confined_files fun t' ht => ?_
  have hroot : t'.isFile root = false := (ht.isFile_eq hdir).trans hfile
  have hdest : destination? t' source root out s.outputSuffix
      = destination? t source root out s.outputSuffix := by
    cases out <;> simp only [destination?, hroot, hfile, Bool.false_eq_true, if_false]
  simp only [hroot, hdest, Bool.false_and, Bool.false_eq_true, if_false]
  split
  · exact ⟨fun _ => id⟩
  · rename_i hsome
    exact confined_writeCode fun hne => ⟨source, hmem, hsome, hne⟩

theorem confined_lowerAll (hdir : t.isDirectory root) (hfile : t.isFile root = false)
    {ps : List Path} (hps : ps ⊆ sources) :
    Confined (Destined t root out s sources) t
      (lowerAll (lowerFile quiet checkOnly root out s) ps) := by
  induction ps with
  | nil => exact ⟨fun _ => id⟩
  | cons p ps ih =>
    obtain ⟨hp, hps⟩ := List.cons_subset.1 hps
    exact .bind (confined_lowerFile hdir hfile hp) fun _ => .bind (ih hps) fun _ => inferInstance

/-- A file some directories below a path. -/
def inside (root : Path) (directories : List String) (name : String) : Path :=
  { root with parts := root.parts ++ (directories ++ [name]) }

theorem inside_inj : inside root ds name = inside root ds' name' ↔ ds = ds' ∧ name = name' := by
  simp [inside]

theorem parent_inside : (inside root ds name).parent = { root with parts := root.parts ++ ds } := by
  simp [inside, Path.parent, ← List.append_assoc]

theorem name_inside : (inside root ds name).name = name := by
  simp [inside, Path.name]

theorem withSuffix?_inside :
    (inside root ds name).withSuffix? suffix = if suffix == "." || suffix.toList.contains '/' then none
      else some (inside root ds (Path.stemOf name ++ suffix)) := by
  simp only [Path.withSuffix?, parent_inside, name_inside]
  simp [inside, Path.child]

theorem destination?_inside (hfile : t.isFile root = false) :
    destination? t (inside root ds name) root out suffix
      = if suffix == "." || suffix.toList.contains '/' then none
        else some (inside (out.getD root) ds (Path.stemOf name ++ suffix)) := by
  cases out with
  | none => exact withSuffix?_inside
  | some out =>
    have hbelow : (inside root ds name).below root = inside { parts := [] } ds name := by
      simp [inside, Path.below]
    simp only [destination?, hfile, hbelow, withSuffix?_inside, Bool.false_eq_true, if_false]
    split <;> simp [inside, Path.join]

/-- A pattern means paths below the directory. -/
theorem exists_of_select {p q : Path} {parts : List Pattern.Part} (h : q ∈ t.select p parts) :
    ∃ rest, q = { p with parts := p.parts ++ rest } := by
  induction parts generalizing p with
  | nil => exact ⟨[], by simpa [select] using h⟩
  | cons part parts ih =>
    cases part with
    | here => exact ⟨[], by simpa [select] using h⟩
    | name text =>
      simp only [select, List.mem_ite_nil_right] at h
      obtain ⟨rest, rfl⟩ := ih h.2
      exact ⟨text :: rest, by simp [Path.child]⟩
    | shape pieces =>
      rw [select] at h
      obtain ⟨name, -, h⟩ := List.mem_flatMap.mp h
      obtain ⟨rest, rfl⟩ := ih h
      exact ⟨name :: rest, by simp [Path.child]⟩
    | deep =>
      rw [select] at h
      obtain ⟨front, -, h⟩ := List.mem_flatMap.mp h
      obtain ⟨rest, rfl⟩ := ih h
      exact ⟨front ++ rest, by simp [Path.join]⟩

theorem exists_of_search {p : Path} {pattern : String} {found : List Path}
    (h : t.search root pattern = .ok found) (hp : p ∈ found) :
    t.isFile p ∧ ∃ parts, p ∈ t.select root parts := by
  unfold search at h
  cases hparts : partsOf pattern with
  | error f => rw [hparts] at h; cases h
  | ok parts =>
    rw [hparts] at h
    cases h
    obtain ⟨hp, hfile⟩ := List.mem_filter.mp hp
    exact ⟨hfile, _, hp⟩

theorem exists_of_mapM {ε α β : Type} {f : α → Except ε β} {as : List α} {bs : List β} {b : β}
    (h : as.mapM f = .ok bs) (hb : b ∈ bs) : ∃ a ∈ as, f a = .ok b := by
  induction as generalizing bs with
  | nil =>
    cases h
    cases hb
  | cons a as ih =>
    rw [List.mapM_cons] at h
    cases ha : f a with
    | error e => rw [ha] at h; cases h
    | ok b' =>
      cases has : as.mapM f with
      | error e => rw [ha, has] at h; cases h
      | ok bs' =>
        rw [ha, has] at h
        cases h
        rcases List.mem_cons.mp hb with rfl | hb
        · exact ⟨a, List.mem_cons_self, ha⟩
        · obtain ⟨a', ha', hf⟩ := ih has hb
          exact ⟨a', List.mem_cons_of_mem a ha', hf⟩

/-- Sources of a directory are looked up without a change, by the patterns of the settings. -/
theorem sourceFiles_eq_ok {c c' : Console} (hfile : c.tree.isFile root = false) :
    sourceFiles root s c = .ok sources c' ↔ c' = c ∧ ∃ patterns found, s.patterns? = some patterns ∧
      patterns.mapM (c.tree.search root) = .ok found ∧ sources = sorted found.flatten := by
  rw [sourceFiles, bind_of_ok (rfl : files c = .ok c.tree c), hfile, if_neg Bool.false_ne_true]
  constructor
  · intro h
    cases hpatterns : s.patterns? with
    | none => rw [hpatterns] at h; cases h
    | some patterns =>
      rw [hpatterns] at h
      dsimp only at h
      cases hfound : patterns.mapM (c.tree.search root) with
      | error f => rw [hfound] at h; cases h
      | ok found =>
        rw [hfound] at h
        cases h
        exact ⟨rfl, patterns, found, rfl, hfound, rfl⟩
  · rintro ⟨rfl, patterns, found, hpatterns, hfound, rfl⟩
    rw [hpatterns]
    dsimp only
    rw [hfound]
    rfl

/-- What is found for a directory is files inside of it. -/
theorem inside_of_mem {c c' : Console} {p : Path} (hfile : c.tree.isFile root = false)
    (h : sourceFiles root s c = .ok sources c') (hp : p ∈ sources) :
    ∃ ds name, p = inside root ds name := by
  obtain ⟨-, patterns, found, -, hfound, rfl⟩ := (sourceFiles_eq_ok hfile).mp h
  rw [sorted, List.mem_mergeSort, List.mem_eraseDups] at hp
  obtain ⟨ps, hps, hp⟩ := List.mem_flatten.mp hp
  obtain ⟨pattern, -, hsearch⟩ := exists_of_mapM hfound hps
  obtain ⟨hisFile, parts, hselect⟩ := exists_of_search hsearch hp
  obtain ⟨rest, rfl⟩ := exists_of_select hselect
  obtain rfl | ⟨ds, name, rfl⟩ := rest.eq_nil_or_concat
  · rw [List.append_nil, hfile] at hisFile
    cases hisFile
  · exact ⟨ds, name, by rw [List.concat_eq_append]; rfl⟩

theorem settled_eq_ok {α : Type} {x : Except Settings.Problem α} {a : α} {c c' : Console}
    (h : settled x c = .ok a c') : c' = c := by
  cases x with
  | ok => cases h; rfl
  | error p => cases hp : p.message? <;> rw [settled, hp] at h <;> cases h

/-- So are settings. -/
theorem settingsFor_eq_ok {target stem : Option String} {c c' : Console}
    (h : settingsFor root target stem c = .ok s c') : c' = c := by
  obtain ⟨t, c₁, hfiles, h⟩ := exists_of_bind h
  cases hfiles
  obtain ⟨s₀, c₂, hresolve, h⟩ := exists_of_bind h
  cases settled_eq_ok hresolve
  dsimp only at h
  split at h
  · obtain ⟨_, c₃, hvalid, h⟩ := exists_of_bind h
    cases settled_eq_ok hvalid
    cases h
    rfl
  · cases h
    rfl

/-- Lowering what is found below a directory changes contents only where the destination of a source
leads that is not the source itself. Sources have one destination just if they are in one directory
and have one stem. -/
theorem lower_changes_destinations (quiet checkOnly : Bool) (path : String)
    (out target stem : Option String) {c : Console} (hdir : c.tree.isDirectory (.ofText path))
    (hfile : c.tree.isFile (.ofText path) = false) :
    let root := Path.ofText path
    let goes (s : Settings) (p : Path) := destination? c.tree p root (out.map .ofText) s.outputSuffix
    let t := (after (lower quiet path out target stem checkOnly c)).tree
    (∀ place, t.content? place ≠ c.tree.content? place → ∃ s sources,
      settingsFor root target stem c = .ok s c ∧ sourceFiles root s c = .ok sources c ∧
      ∃ p ∈ sources, ∃ d, goes s p = some d ∧ sameFile? c.tree d p = some false ∧
        t.place? d = some place) ∧
    ∀ s sources, sourceFiles root s c = .ok sources c → ∀ p ∈ sources, ∀ q ∈ sources, ∀ d,
      goes s p = some d →
      (goes s q = some d ↔ q.parent = p.parent ∧ Path.stemOf q.name = Path.stemOf p.name) := by
  intro root goes t
  refine ⟨fun place hne => ?_, fun s sources hsources p hp q hq d hd => ?_⟩
  · have hwrites : Writes (fun d => ∃ s sources, settingsFor root target stem c = .ok s c ∧
        sourceFiles root s c = .ok sources c ∧ Destined c.tree root (out.map .ofText) s sources d)
        c.tree t := by
      refine after_bind (I := fun c' : Console => Writes _ c.tree c'.tree) inferInstance .refl
        fun s c₁ hs _ => ?_
      obtain rfl := settingsFor_eq_ok hs
      refine after_bind (I := fun c' : Console => Writes _ c₁.tree c'.tree) inferInstance .refl
        fun sources c₂ hsources _ => ?_
      obtain rfl := ((sourceFiles_eq_ok hfile).mp hsources).1
      split
      · exact .refl
      · exact (((confined_lowerAll hdir hfile (List.Subset.refl _)).bind
          fun _ => inferInstance).ends c₂ .refl).mono fun d hd => ⟨s, sources, hs, hsources, hd⟩
    obtain ⟨d, ⟨s, sources, hs, hsources, p, hp, hgoes, hsame⟩, hplace⟩ := hwrites.changed place hne
    exact ⟨s, sources, hs, hsources, p, hp, d, hgoes, hsame, hplace⟩
  · obtain ⟨ds, name, rfl⟩ := inside_of_mem hfile hsources hp
    obtain ⟨ds', name', rfl⟩ := inside_of_mem hfile hsources hq
    simp only [goes, root, destination?_inside hfile] at hd ⊢
    split at hd
    · cases hd
    · rename_i hsuffix
      cases hd
      rw [if_neg hsuffix, Option.some_inj, inside_inj]
      simp [parent_inside, name_inside]

/-- Two sources whose names differ by an ending that both have go to one file. -/
theorem dotted_sources_meet :
    let s : Settings := { sources := .list [.string "src/[.]t*"] }
    let c : Console :=
      { tree := { files := [(["src", ".tbjs"], "1;\n"), (["src", ".tbjs.tbjs"], "2;\n")] } }
    let goes (p : Path) := destination? c.tree p { parts := [] } none s.outputSuffix
    sourceFiles { parts := [] } s c =
        .ok [{ parts := ["src", ".tbjs"] }, { parts := ["src", ".tbjs.tbjs"] }] c ∧
      goes { parts := ["src", ".tbjs"] } = some { parts := ["src", ".tbjs.js"] } ∧
      goes { parts := ["src", ".tbjs.tbjs"] } = some { parts := ["src", ".tbjs.js"] } := by
  intro s c goes
  have hfile : c.tree.isFile { parts := [] } = false := by decide +kernel
  have hfound : sourceFiles { parts := [] } s c =
      .ok [{ parts := ["src", ".tbjs"] }, { parts := ["src", ".tbjs.tbjs"] }] c :=
    (sourceFiles_eq_ok hfile).mpr ⟨rfl, ["src/[.]t*"],
      [[{ parts := ["src", ".tbjs"] }, { parts := ["src", ".tbjs.tbjs"] }]], rfl,
      by decide +kernel, by cbv⟩
  have hgoes : goes { parts := ["src", ".tbjs"] } = some { parts := ["src", ".tbjs.js"] } := by
    decide +kernel
  have hroot : Path.ofText "." = { parts := [] } := by decide +kernel
  have h := (lower_changes_destinations false false "." none none none (c := c)
    (by decide +kernel) (hroot ▸ hfile)).2
  rw [hroot] at h
  exact ⟨hfound, hgoes, (h s _ hfound _ (by simp) _ (by simp) _ hgoes).2 ⟨rfl, rfl⟩⟩

/-- A source is overwritten with the code of another one. -/
theorem lowering_overwrites_source :
    let s : Settings := { sources := .list [.string "*.tbjs", .string "*.js"] }
    let c : Console :=
      { tree := { files := [(["a.js"], "let y = 2;\n"), (["a.tbjs"], "let x = 1;\n")] } }
    s.validate "" = .ok () ∧
      sourceFiles { parts := [] } s c = .ok [{ parts := ["a.js"] }, { parts := ["a.tbjs"] }] c ∧
      (after (lowerAll (lowerFile false false { parts := [] } none s)
        [{ parts := ["a.js"] }, { parts := ["a.tbjs"] }] c)).tree.content? ["a.js"]
        = some "let x = 1;\n" := by
  intro s c
  refine ⟨by cbv, (sourceFiles_eq_ok (by decide +kernel)).mpr ⟨rfl, ["*.tbjs", "*.js"],
    [[{ parts := ["a.tbjs"] }], [{ parts := ["a.js"] }]], rfl, by decide +kernel, by cbv⟩, ?_⟩
  decide +kernel

end Command

end StepBinding

import Mathlib.Data.List.Basic
import Mathlib.Logic.Relation
import SolutionTree.Dependencies.BuildOrder

/-!
Depth-first search, and what the order in which it finishes names says about paths.

`Search.visit` stops at a depth; `Visits` tells the same search without one, and
`visits_foldl` says that a depth of as many steps as there are names left to discover is enough.
A name is open while it is discovered but not finished. What a visit keeps is `Sound`: when a name
is finished, each of its successors is finished already, or leads back to it. The second
happens exactly at open names, since all of them lead to the name that is being visited.

* `visits_sound` — a visit keeps a search sound, leaves the open names open, and discovers
  every name that it was asked to visit.
* `perm_finished_visitAll` — a whole search finishes every name once.
* `reaches_of_finished_before` — a successor that is finished after its predecessor leads to it.
-/

namespace SolutionTree.Search

variable {successors : String → List String}

def discover (s : Search) (name : String) : Search :=
  { s with discovered := name :: s.discovered }

def finish (s : Search) (name : String) : Search :=
  { s with finished := name :: s.finished }

@[simp] theorem discovered_discover (s : Search) (name : String) :
    (s.discover name).discovered = name :: s.discovered := rfl

@[simp] theorem finished_discover (s : Search) (name : String) :
    (s.discover name).finished = s.finished := rfl

@[simp] theorem discovered_finish (s : Search) (name : String) :
    (s.finish name).discovered = s.discovered := rfl

@[simp] theorem finished_finish (s : Search) (name : String) :
    (s.finish name).finished = name :: s.finished := rfl

/-! ### Searches without a depth -/

/-- Visiting names one after another leads from one search to another. -/
inductive Visits (successors : String → List String) :
    Search → List String → Search → Prop where
  | done (s : Search) : Visits successors s [] s
  | seen {s t : Search} {name : String} {names : List String} :
      name ∈ s.discovered → Visits successors s names t →
      Visits successors s (name :: names) t
  | fresh {s inner t : Search} {name : String} {names : List String} :
      name ∉ s.discovered → Visits successors (s.discover name) (successors name) inner →
      Visits successors (inner.finish name) names t → Visits successors s (name :: names) t

/-- The names that a search has still to discover. -/
def undiscovered (all : List String) (s : Search) : List String :=
  all.filter fun name => name ∉ s.discovered

/-- What was discovered stays discovered. -/
theorem Visits.discovered_subset {s t : Search} {names : List String}
    (h : Visits successors s names t) : s.discovered ⊆ t.discovered := by
  induction h with
  | done s => exact List.Subset.refl _
  | seen _ _ ih => exact ih
  | fresh _ _ _ ihInner ihRest =>
    intro a ha
    exact ihRest (ihInner (List.mem_cons_of_mem _ ha))

theorem length_undiscovered_le {all : List String} {s t : Search}
    (h : s.discovered ⊆ t.discovered) :
    (undiscovered all t).length ≤ (undiscovered all s).length := by
  refine (List.monotone_filter_right all fun a ha => ?_).length_le
  simp only [decide_eq_true_eq] at ha ⊢
  exact fun hs => ha (h hs)

/-- Discovering a name leaves fewer to discover. This is the measure by which the
search ends before its fuel does. -/
theorem length_undiscovered_discover_lt {all : List String} {s : Search} {name : String}
    (hm : name ∈ all) (hn : name ∉ s.discovered) :
    (undiscovered all (s.discover name)).length < (undiscovered all s).length := by
  have hsub : (undiscovered all (s.discover name)).Sublist (undiscovered all s) := by
    refine List.monotone_filter_right all fun a ha => ?_
    simp only [discovered_discover, List.mem_cons, decide_eq_true_eq] at ha ⊢
    exact fun hs => ha (Or.inr hs)
  refine Nat.lt_of_le_of_ne hsub.length_le fun hlen => ?_
  have heq := hsub.eq_of_length hlen
  have hin : name ∈ undiscovered all s := List.mem_filter.mpr ⟨hm, by simpa using hn⟩
  rw [← heq] at hin
  simp [undiscovered] at hin

/-- A search of limited depth is the search without a limit, as long as the depth
allows for every name that is still to be discovered. -/
theorem visits_foldl {all : List String} (closed : ∀ a ∈ all, successors a ⊆ all)
    (depth : Nat) (s : Search) (names : List String) (hnames : names ⊆ all)
    (hdepth : (undiscovered all s).length ≤ depth) :
    Visits successors s names (names.foldl (visit successors depth) s) := by
  induction depth generalizing s names with
  | zero =>
    -- Nothing is left to discover, so every name has been seen.
    have hall : ∀ a ∈ all, a ∈ s.discovered := by
      simpa [undiscovered] using hdepth
    induction names with
    | nil => exact .done s
    | cons name names ih =>
      obtain ⟨hname, hrest⟩ := List.cons_subset.mp hnames
      exact .seen (hall name hname) (ih hrest)
  | succ depth ih =>
    induction names generalizing s with
    | nil => exact .done s
    | cons name names ihNames =>
      obtain ⟨hname, hrest⟩ := List.cons_subset.mp hnames
      rw [List.foldl_cons]
      by_cases hd : name ∈ s.discovered
      · have hv : visit successors (depth + 1) s name = s := by simp [visit, hd]
        rw [hv]
        exact .seen hd (ihNames s hrest hdepth)
      · have hv : visit successors (depth + 1) s name =
            ((successors name).foldl (visit successors depth) (s.discover name)).finish name := by
          simp [visit, hd, discover, finish]
        rw [hv]
        have hlt := length_undiscovered_discover_lt hname hd
        have hinner := ih (s.discover name) (successors name) (closed name hname) (by omega)
        refine .fresh hd hinner (ihNames _ hrest ?_)
        have hgrow : s.discovered ⊆ (s.discover name).discovered := List.subset_cons_self _ _
        have hsub := List.Subset.trans hgrow hinner.discovered_subset
        exact Nat.le_trans (length_undiscovered_le hsub) hdepth

/-! ### What a visit keeps -/

/-- A name leads to another in any number of steps. -/
def Reaches (successors : String → List String) : String → String → Prop :=
  Relation.ReflTransGen fun a b => b ∈ successors a

/-- A name is open while it is being visited: discovered, but not finished. -/
def Open (s : Search) (name : String) : Prop :=
  name ∈ s.discovered ∧ name ∉ s.finished

/-- What holds of a search at every moment: finished names stand once and were
discovered, and each successor of a finished name was finished before it, or leads
back to it. -/
structure Sound (successors : String → List String) (s : Search) : Prop where
  nodup : s.finished.Nodup
  finished_subset : s.finished ⊆ s.discovered
  settled : ∀ newer a older, s.finished = newer ++ a :: older →
    ∀ b ∈ successors a, b ∈ older ∨ Reaches successors b a

theorem sound_start : Sound successors {} where
  nodup := List.nodup_nil
  finished_subset := List.Subset.refl _
  settled := by
    intro newer a older h
    simp at h

/-- Discovering a name keeps a search sound: nothing is finished by it. -/
theorem Sound.discover {s : Search} (h : Sound successors s) (name : String) :
    Sound successors (s.discover name) where
  nodup := h.nodup
  finished_subset := fun _ ha => List.mem_cons_of_mem _ (h.finished_subset ha)
  settled := h.settled

/-- An open name may be finished once each of its successors is finished, or leads
to it. -/
theorem Sound.finish {s : Search} (h : Sound successors s) {name : String} (hopen : s.Open name)
    (hsucc : ∀ b ∈ successors name, b ∈ s.finished ∨ Reaches successors b name) :
    Sound successors (s.finish name) where
  nodup := List.nodup_cons.mpr ⟨hopen.2, h.nodup⟩
  finished_subset := by
    intro a ha
    rcases List.mem_cons.mp ha with rfl | ha
    · exact hopen.1
    · exact h.finished_subset ha
  settled := by
    intro newer a older heq
    rw [finished_finish] at heq
    rcases List.cons_eq_append_iff.mp heq with ⟨-, hcons⟩ | ⟨newer, -, hfin⟩
    · obtain ⟨rfl, rfl⟩ := List.cons.inj hcons
      exact hsucc
    · exact h.settled newer a older hfin

/-- A name that is discovered is open, besides those that were. -/
theorem open_discover_iff {s : Search} (h : Sound successors s) {name a : String}
    (hn : name ∉ s.discovered) : (s.discover name).Open a ↔ a = name ∨ s.Open a := by
  have hfin : name ∉ s.finished := fun hf => hn (h.finished_subset hf)
  constructor
  · rintro ⟨hd, hf⟩
    rcases List.mem_cons.mp hd with rfl | hd
    · exact Or.inl rfl
    · exact Or.inr ⟨hd, hf⟩
  · rintro (rfl | ⟨hd, hf⟩)
    · exact ⟨List.mem_cons_self, hfin⟩
    · exact ⟨List.mem_cons_of_mem _ hd, hf⟩

/-- A name that is finished is not open any more, and no other name is touched. -/
theorem open_finish_iff {s : Search} {name a : String} :
    (s.finish name).Open a ↔ a ≠ name ∧ s.Open a := by
  simp only [Open, discovered_finish, finished_finish, List.mem_cons, not_or]
  exact ⟨fun ⟨hd, hne, hf⟩ => ⟨hne, hd, hf⟩, fun ⟨hne, hd, hf⟩ => ⟨hd, hne, hf⟩⟩

/-- A visit keeps a search sound and its open names open, and discovers the visited
names. For this every open name has to lead to the names that are visited: the
search came from there. -/
theorem visits_sound {s t : Search} {names : List String} (h : Visits successors s names t)
    (hs : Sound successors s) (hlead : ∀ a, s.Open a → ∀ b ∈ names, Reaches successors a b) :
    Sound successors t ∧ (∀ a, t.Open a ↔ s.Open a) ∧ names ⊆ t.discovered := by
  induction h with
  | done s => exact ⟨hs, fun _ => Iff.rfl, List.nil_subset _⟩
  | @seen s t name names hd hrest ih =>
    obtain ⟨ht, hopen, hsub⟩ := ih hs fun a ha b hb => hlead a ha b (List.mem_cons_of_mem _ hb)
    exact ⟨ht, hopen, List.cons_subset.mpr ⟨hrest.discovered_subset hd, hsub⟩⟩
  | @fresh s inner t name names hd _ hrest ihInner ihRest =>
    have hopenName : ∀ a, (s.discover name).Open a → Reaches successors a name := by
      intro a ha
      rcases (open_discover_iff hs hd).mp ha with rfl | ha
      · exact Relation.ReflTransGen.refl
      · exact hlead a ha name List.mem_cons_self
    obtain ⟨hinner, hopenInner, hsubInner⟩ := ihInner (hs.discover name)
      fun a ha b hb => (hopenName a ha).tail hb
    have hnameOpen : inner.Open name :=
      (hopenInner name).mpr ((open_discover_iff hs hd).mpr (Or.inl rfl))
    -- A successor is discovered by now; if it is still open, the search came from it.
    have hfin := hinner.finish hnameOpen fun b hb => by
      by_cases hb' : b ∈ inner.finished
      · exact Or.inl hb'
      · exact Or.inr (hopenName b ((hopenInner b).mp ⟨hsubInner hb, hb'⟩))
    have hopenFin : ∀ a, (inner.finish name).Open a ↔ s.Open a := by
      intro a
      rw [open_finish_iff, hopenInner, open_discover_iff hs hd]
      constructor
      · rintro ⟨hne, rfl | ha⟩
        · exact absurd rfl hne
        · exact ha
      · intro ha
        exact ⟨fun e => hd (e ▸ ha.1), Or.inr ha⟩
    obtain ⟨ht, hopen, hsub⟩ := ihRest hfin fun a ha b hb =>
      hlead a ((hopenFin a).mp ha) b (List.mem_cons_of_mem _ hb)
    have hmem : name ∈ t.discovered := hrest.discovered_subset hnameOpen.1
    exact ⟨ht, fun a => (hopen a).trans (hopenFin a), List.cons_subset.mpr ⟨hmem, hsub⟩⟩

/-- A visit discovers nothing outside a set of names that is closed under
successors. -/
theorem Visits.discovered_subset_of_closed {all : List String}
    (closed : ∀ a ∈ all, successors a ⊆ all) {s t : Search} {names : List String}
    (h : Visits successors s names t) (hs : s.discovered ⊆ all) (hnames : names ⊆ all) :
    t.discovered ⊆ all := by
  induction h with
  | done s => exact hs
  | seen _ _ ih => exact ih hs (List.cons_subset.mp hnames).2
  | fresh _ _ _ ihInner ihRest =>
    obtain ⟨hname, hrest⟩ := List.cons_subset.mp hnames
    exact ihRest (ihInner (List.cons_subset.mpr ⟨hname, hs⟩) (closed _ hname)) hrest

/-! ### Whole searches -/

section Whole

variable {names : List String} (closed : ∀ a ∈ names, successors a ⊆ names)
include closed

/-- The search of all names is a visit of them, from nothing. Fuel is enough because
every step down discovers a name. -/
theorem visits_visitAll : Visits successors {} names (visitAll successors names) :=
  visits_foldl closed names.length {} names (List.Subset.refl _) (List.length_filter_le _ _)

/-- A whole search is sound, leaves no name open, and discovers just the names there
are. -/
theorem sound_visitAll : Sound successors (visitAll successors names) ∧
    (∀ a, ¬ (visitAll successors names).Open a) ∧
    ∀ a, a ∈ (visitAll successors names).discovered ↔ a ∈ names := by
  have h := visits_visitAll closed
  have hstart : ∀ a, ¬ (({} : Search).Open a) := fun a ha => List.not_mem_nil ha.1
  obtain ⟨hsound, hopen, hsub⟩ := visits_sound h sound_start fun a ha => absurd ha (hstart a)
  refine ⟨hsound, fun a ha => hstart a ((hopen a).mp ha), fun a => ⟨?_, fun ha => hsub ha⟩⟩
  intro ha
  exact h.discovered_subset_of_closed closed (List.nil_subset _) (List.Subset.refl _) ha

/-- A whole search finishes every name, and each once: nothing is left open when all
names are visited. -/
theorem perm_finished_visitAll (hnodup : names.Nodup) :
    (visitAll successors names).finished.Perm names := by
  obtain ⟨hsound, hopen, hdisc⟩ := sound_visitAll closed
  refine (List.perm_ext_iff_of_nodup hsound.nodup hnodup).mpr fun a => ?_
  constructor
  · intro ha
    exact (hdisc a).mp (hsound.finished_subset ha)
  · intro ha
    by_contra hf
    exact hopen a ⟨(hdisc a).mpr ha, hf⟩

/-- Names that are finished stand in the list from the last to the first. A
successor that does not stand behind its predecessor leads back to it. -/
theorem reaches_of_finished_before {newer older : List String} {a b : String}
    (hfin : (visitAll successors names).finished = newer ++ a :: older)
    (hb : b ∈ successors a) (hnot : b ∉ older) : Reaches successors b a :=
  ((sound_visitAll closed).1.settled newer a older hfin b hb).resolve_left hnot

end Whole

end SolutionTree.Search

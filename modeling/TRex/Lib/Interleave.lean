import Mathlib.Data.List.Dedup
import Mathlib.Data.List.Nodup
import Mathlib.Data.List.Perm.Basic
import Mathlib.Logic.Function.Basic
import Mathlib.Tactic.Common

/-!
# Interleaving programs over independent components

Actions on a family of components, each of which changes one component and puts out a list of
results. What a list of actions does to a component, and what it puts out for it, depends only on
the actions at that component (`run_fst`, `run_snd_perm`). If moreover every component is touched by
the program of one owner only, every schedule of the programs has the effect of any sequence that
keeps the order within each component (`Schedule.exec_eq_run`).
-/

namespace Interleave

variable {I S A O W : Type*}

structure System (I S A O : Type*) where
  /-- The component that an action is about. -/
  comp : A → I
  act : A → S → S × List O

variable [DecidableEq I] (sys : System I S A O)

/-- The actions of a list on the whole family, and all they put out. -/
def run : (I → S) → List A → (I → S) × List O
  | s, [] => (s, [])
  | s, a :: rest =>
    let r := sys.act a (s (sys.comp a))
    let after := run (Function.update s (sys.comp a) r.1) rest
    (after.1, r.2 ++ after.2)

/-- The actions of a list on one component. -/
def runComp : S → List A → S × List O
  | s, [] => (s, [])
  | s, a :: rest =>
    let r := sys.act a s
    let after := runComp r.1 rest
    (after.1, r.2 ++ after.2)

/-- The actions at a component. -/
def at_ (i : I) (l : List A) : List A := l.filter fun a => decide (sys.comp a = i)

variable {sys}

theorem at_cons_self (a : A) (l : List A) :
    at_ sys (sys.comp a) (a :: l) = a :: at_ sys (sys.comp a) l := by
  simp [at_]

theorem at_cons_of_ne {i : I} {a : A} (ne : sys.comp a ≠ i) (l : List A) :
    at_ sys i (a :: l) = at_ sys i l := by
  simp [at_, ne]

/-! ## One component -/

theorem run_fst (s : I → S) (l : List A) (i : I) :
    (run sys s l).1 i = (runComp sys (s i) (at_ sys i l)).1 := by
  induction l generalizing s with
  | nil => rfl
  | cons a rest ih =>
      simp only [run]
      rw [ih]
      by_cases here : sys.comp a = i
      · subst here
        rw [Function.update_self, at_cons_self]
        rfl
      · rw [Function.update_of_ne (Ne.symm here), at_cons_of_ne here]

omit [DecidableEq I] in
/-- Adding `x` to the part of one component adds it to the whole. -/
theorem flatMap_perm_of_change {comps : List I} (nodup : comps.Nodup) {c : I} (mem : c ∈ comps)
    {f g : I → List O} {x : List O} (at_c : (f c).Perm (x ++ g c))
    (elsewhere : ∀ i, i ≠ c → f i = g i) :
    (comps.flatMap f).Perm (x ++ comps.flatMap g) := by
  induction comps with
  | nil => cases mem
  | cons i rest ih =>
      obtain ⟨notIn, nodup'⟩ := List.nodup_cons.mp nodup
      rw [List.flatMap_cons, List.flatMap_cons]
      rcases List.mem_cons.mp mem with rfl | inRest
      · have others : rest.flatMap f = rest.flatMap g := by
          refine List.flatMap_congr fun i mem' => elsewhere i ?_
          exact fun same => notIn (same ▸ mem')
        rw [others, ← List.append_assoc]
        exact at_c.append_right _
      · have ne : i ≠ c := fun same => notIn (same ▸ inRest)
        rw [elsewhere i ne]
        refine ((ih nodup' inRest).append_left (g i)).trans ?_
        rw [← List.append_assoc, ← List.append_assoc]
        exact List.perm_append_comm.append_right _

theorem run_snd_perm {comps : List I} (nodup : comps.Nodup) (s : I → S) {l : List A}
    (covers : ∀ a ∈ l, sys.comp a ∈ comps) :
    (run sys s l).2.Perm (comps.flatMap fun i => (runComp sys (s i) (at_ sys i l)).2) := by
  induction l generalizing s with
  | nil =>
      have nothing : (comps.flatMap fun i => (runComp sys (s i) (at_ sys i [])).2) = [] := by
        rw [List.flatMap_eq_nil_iff]
        exact fun i _ => rfl
      rw [nothing]
      exact List.Perm.refl _
  | cons a rest ih =>
      obtain ⟨here, there⟩ := List.forall_mem_cons.mp covers
      simp only [run]
      refine ((ih _ there).append_left _).trans (flatMap_perm_of_change nodup here ?_ ?_).symm
      · rw [at_cons_self, Function.update_self]
        exact List.Perm.refl _
      · intro i ne
        rw [Function.update_of_ne ne, at_cons_of_ne ne.symm]

/-- Two sequences with the same actions at every component have the same effect, and put out the
same up to order. -/
theorem run_congr (s : I → S) {l l' : List A} (same : ∀ i, at_ sys i l = at_ sys i l') :
    (run sys s l).1 = (run sys s l').1 ∧ (run sys s l).2.Perm (run sys s l').2 := by
  constructor
  · funext i
    rw [run_fst, run_fst, same]
  · have covers : ∀ a ∈ l, sys.comp a ∈ (l.map sys.comp).dedup := by
      intro a mem
      exact List.mem_dedup.mpr (List.mem_map_of_mem mem)
    have covers' : ∀ a ∈ l', sys.comp a ∈ (l.map sys.comp).dedup := by
      intro a mem
      have there : a ∈ at_ sys (sys.comp a) l' := List.mem_filter.mpr ⟨mem, by simp⟩
      rw [← same] at there
      exact covers a (List.mem_of_mem_filter there)
    have nodup := List.nodup_dedup (l.map sys.comp)
    refine (run_snd_perm nodup s covers).trans ?_
    simp only [same]
    exact (run_snd_perm nodup s covers').symm

/-- If the second of two systems does on represented states what the first does, relabelled actions
have the same effect there. -/
theorem run_relabel {T B : Type*} {sys' : System I T B O} {represent : S → T} {relabel : A → B}
    (comp : ∀ a, sys'.comp (relabel a) = sys.comp a)
    (act : ∀ a st, sys'.act (relabel a) (represent st) =
      (represent (sys.act a st).1, (sys.act a st).2)) (s : I → S) (l : List A) :
    run sys' (fun i => represent (s i)) (l.map relabel) =
      (fun i => represent ((run sys s l).1 i), (run sys s l).2) := by
  induction l generalizing s with
  | nil => rfl
  | cons a rest ih =>
      have updated : Function.update (fun i => represent (s i)) (sys.comp a)
          (represent (sys.act a (s (sys.comp a))).1) =
          fun i => represent (Function.update s (sys.comp a) (sys.act a (s (sys.comp a))).1 i) := by
        funext i
        by_cases here : i = sys.comp a
        · subst here
          simp
        · simp [here]
      simp only [List.map_cons, run, comp, act, updated, ih]

/-- An invariant of the components that every action of the list keeps. -/
theorem run_induct {p : I → S → Prop} {l : List A}
    (keeps : ∀ a ∈ l, ∀ st, p (sys.comp a) st → p (sys.comp a) (sys.act a st).1)
    {s : I → S} (start : ∀ i, p i (s i)) (i : I) : p i ((run sys s l).1 i) := by
  induction l generalizing s with
  | nil => exact start i
  | cons a rest ih =>
      obtain ⟨here, there⟩ := List.forall_mem_cons.mp keeps
      refine ih there fun j => ?_
      by_cases same : j = sys.comp a
      · subst same
        rw [Function.update_self]
        exact here _ (start _)
      · rw [Function.update_of_ne same]
        exact start j

/-- What actions put out that keep an invariant of the components. -/
theorem forall_mem_run {p : I → S → Prop} {q : O → Prop} {l : List A}
    (keeps : ∀ a ∈ l, ∀ st, p (sys.comp a) st → p (sys.comp a) (sys.act a st).1 ∧
      ∀ y ∈ (sys.act a st).2, q y)
    {s : I → S} (start : ∀ i, p i (s i)) : ∀ y ∈ (run sys s l).2, q y := by
  induction l generalizing s with
  | nil => exact fun y mem => nomatch mem
  | cons a rest ih =>
      obtain ⟨here, there⟩ := List.forall_mem_cons.mp keeps
      obtain ⟨kept, now⟩ := here _ (start (sys.comp a))
      refine List.forall_mem_append.mpr ⟨now, ih there fun j => ?_⟩
      by_cases same : j = sys.comp a
      · subst same
        rwa [Function.update_self]
      · rw [Function.update_of_ne same]
        exact start j

theorem run_append (s : I → S) (l l' : List A) :
    run sys s (l ++ l') = ((run sys (run sys s l).1 l').1, (run sys s l).2 ++
      (run sys (run sys s l).1 l').2) := by
  induction l generalizing s with
  | nil => rfl
  | cons a rest ih =>
      simp only [List.cons_append, run]
      rw [ih, List.append_assoc]

omit [DecidableEq I] in
theorem runComp_append (s : S) (l l' : List A) :
    runComp sys s (l ++ l') = ((runComp sys (runComp sys s l).1 l').1, (runComp sys s l).2 ++
      (runComp sys (runComp sys s l).1 l').2) := by
  induction l generalizing s with
  | nil => rfl
  | cons a rest ih =>
      simp only [List.cons_append, runComp]
      rw [ih, List.append_assoc]

/-- The actions of one component only. -/
theorem run_of_comp {s : I → S} {l : List A} {i : I} (comp : ∀ a ∈ l, sys.comp a = i) :
    run sys s l = (Function.update s i (runComp sys (s i) l).1, (runComp sys (s i) l).2) := by
  induction l generalizing s with
  | nil => simp [run, runComp]
  | cons a rest ih =>
      obtain ⟨here, there⟩ := List.forall_mem_cons.mp comp
      subst here
      simp only [run, runComp]
      rw [ih there, Function.update_self, Function.update_idem]

/-- One component after the other. -/
theorem run_flatMap {comps : List I} (nodup : comps.Nodup) (prog : I → List A)
    (comp : ∀ i, ∀ a ∈ prog i, sys.comp a = i) (s : I → S) :
    run sys s (comps.flatMap prog) =
      (fun i => if i ∈ comps then (runComp sys (s i) (prog i)).1 else s i,
        comps.flatMap fun i => (runComp sys (s i) (prog i)).2) := by
  induction comps generalizing s with
  | nil => simp [run]
  | cons c rest ih =>
      obtain ⟨notIn, nodup'⟩ := List.nodup_cons.mp nodup
      rw [List.flatMap_cons, run_append, run_of_comp (comp c), ih nodup', List.flatMap_cons]
      refine Prod.ext ?_ ?_
      · funext i
        by_cases here : i = c
        · subst here
          simp [notIn]
        · simp [here]
      · refine congrArg (_ ++ ·) (List.flatMap_congr fun i mem => ?_)
        have ne : i ≠ c := fun same => notIn (same ▸ mem)
        dsimp only
        rw [Function.update_of_ne ne]

/-- What is put out was put out by one of the actions. -/
theorem mem_run_snd {s : I → S} {l : List A} {o : O} (mem : o ∈ (run sys s l).2) :
    ∃ a ∈ l, ∃ st, o ∈ (sys.act a st).2 := by
  induction l generalizing s with
  | nil => cases mem
  | cons a rest ih =>
      rcases List.mem_append.mp mem with here | later
      · exact ⟨a, List.mem_cons_self, _, here⟩
      · obtain ⟨b, inRest, st, put⟩ := ih later
        exact ⟨b, List.mem_cons_of_mem a inRest, st, put⟩

/-! ## Schedules -/

section Schedules

variable [DecidableEq W]

/-- The orders in which the programs of the workers can be executed to their ends. -/
inductive Schedule : (W → List A) → List (W × A) → Prop
  | done {progs : W → List A} (ends : ∀ w, progs w = []) : Schedule progs []
  | step {progs : W → List A} {w : W} {a : A} {rest : List A} {l : List (W × A)}
      (next : progs w = a :: rest) (later : Schedule (Function.update progs w rest) l) :
      Schedule progs ((w, a) :: l)

variable (sys)

/-- An execution: the components and what each worker has put out. -/
def exec : (I → S) × (W → List O) → List (W × A) → (I → S) × (W → List O)
  | cfg, [] => cfg
  | cfg, (w, a) :: rest =>
    let r := sys.act a (cfg.1 (sys.comp a))
    exec (Function.update cfg.1 (sys.comp a) r.1, Function.update cfg.2 w (cfg.2 w ++ r.2)) rest

variable {sys} {progs : W → List A} {l : List (W × A)}

/-- A schedule executes each worker's program in order. -/
theorem Schedule.filter_eq (sched : Schedule progs l) (w : W) :
    (l.filter fun x => decide (x.1 = w)).map Prod.snd = progs w := by
  induction sched with
  | done ends => rw [ends w]; rfl
  | @step progs w' a rest l next later ih =>
      by_cases here : w' = w
      · subst here
        rw [List.filter_cons, if_pos (by simp), List.map_cons, ih, Function.update_self, next]
      · rw [List.filter_cons, if_neg (by simp [here]), ih, Function.update_of_ne (Ne.symm here)]

/-- If components have owners, the actions at a component are those of its owner. -/
theorem Schedule.at_eq (sched : Schedule progs l) {owner : I → W}
    (owned : ∀ w, ∀ a ∈ progs w, owner (sys.comp a) = w) (i : I) :
    at_ sys i (l.map Prod.snd) = at_ sys i (progs (owner i)) := by
  have byOwner : ∀ x ∈ l, owner (sys.comp x.2) = x.1 := by
    intro x mem
    have inProg : x.2 ∈ progs x.1 := by
      rw [← sched.filter_eq x.1]
      exact List.mem_map_of_mem (List.mem_filter.mpr ⟨mem, by simp⟩)
    exact owned x.1 x.2 inProg
  rw [← sched.filter_eq (owner i)]
  unfold at_
  rw [List.filter_map, List.filter_map, List.filter_filter]
  congr 1
  refine List.filter_congr fun x mem => ?_
  by_cases here : sys.comp x.2 = i
  · simp [here, ← byOwner x mem]
  · simp [here]

/-- The same holds if the workers go one after the other. -/
theorem at_flatMap {owner : I → W} (owned : ∀ w, ∀ a ∈ progs w, owner (sys.comp a) = w)
    {workers : List W} (nodup : workers.Nodup) (covers : ∀ w, w ∉ workers → progs w = []) (i : I) :
    at_ sys i (workers.flatMap progs) = at_ sys i (progs (owner i)) := by
  have others : ∀ w, w ≠ owner i → at_ sys i (progs w) = [] := by
    intro w ne
    refine List.filter_eq_nil_iff.mpr fun a mem here => ne ?_
    rw [← of_decide_eq_true here, owned w a mem]
  have part : ∀ ws : List W, ws.Nodup → at_ sys i (ws.flatMap progs) =
      if owner i ∈ ws then at_ sys i (progs (owner i)) else [] := by
    intro ws nodup
    induction ws with
    | nil => rfl
    | cons w rest ih =>
        obtain ⟨notIn, nodup'⟩ := List.nodup_cons.mp nodup
        have split : at_ sys i ((w :: rest).flatMap progs) =
            at_ sys i (progs w) ++ at_ sys i (rest.flatMap progs) := by
          rw [List.flatMap_cons]
          exact List.filter_append _ _
        rw [split, ih nodup']
        rcases eq_or_ne w (owner i) with rfl | ne
        · rw [if_neg notIn, List.append_nil, if_pos List.mem_cons_self]
        · rw [others w ne, List.nil_append]
          simp [ne.symm]
  rw [part workers nodup]
  by_cases isWorker : owner i ∈ workers
  · rw [if_pos isWorker]
  · rw [if_neg isWorker, covers _ isWorker]
    rfl

theorem exec_fst (s : I → S) (out : W → List O) (l : List (W × A)) :
    (exec sys (s, out) l).1 = (run sys s (l.map Prod.snd)).1 := by
  induction l generalizing s out with
  | nil => rfl
  | cons x rest ih => exact ih _ _

/-- All that the workers put out is what the actions put out. -/
theorem exec_snd_perm {workers : List W} (nodup : workers.Nodup) (s : I → S) (out : W → List O)
    {l : List (W × A)} (covers : ∀ x ∈ l, x.1 ∈ workers) :
    (workers.flatMap (exec sys (s, out) l).2).Perm
      (workers.flatMap out ++ (run sys s (l.map Prod.snd)).2) := by
  induction l generalizing s out with
  | nil =>
      simp only [exec, List.map_nil, run, List.append_nil]
      exact List.Perm.refl _
  | cons x rest ih =>
      obtain ⟨here, there⟩ := List.forall_mem_cons.mp covers
      simp only [exec, List.map_cons, run]
      generalize sys.act x.2 (s (sys.comp x.2)) = r
      have grown : (workers.flatMap (Function.update out x.1 (out x.1 ++ r.2))).Perm
          (workers.flatMap out ++ r.2) := by
        refine (flatMap_perm_of_change nodup here ?_ ?_).trans List.perm_append_comm
        · rw [Function.update_self]
          exact List.perm_append_comm
        · intro w ne
          rw [Function.update_of_ne ne]
      refine (ih _ _ there).trans ?_
      rw [← List.append_assoc]
      exact grown.append_right _

/-- Every schedule has the effect of a sequence in which the actions at each component are those of
its owner. -/
theorem Schedule.exec_eq_run (sched : Schedule progs l) {owner : I → W}
    (owned : ∀ w, ∀ a ∈ progs w, owner (sys.comp a) = w) {seq : List A}
    (same : ∀ i, at_ sys i seq = at_ sys i (progs (owner i))) {workers : List W}
    (nodup : workers.Nodup) (covers : ∀ w, w ∉ workers → progs w = []) (s : I → S) :
    (exec sys (s, fun _ => []) l).1 = (run sys s seq).1 ∧
      (workers.flatMap (exec sys (s, fun _ => []) l).2).Perm (run sys s seq).2 := by
  have labels : ∀ x ∈ l, x.1 ∈ workers := by
    intro x mem
    by_contra notIn
    have none := sched.filter_eq x.1
    rw [covers x.1 notIn, List.map_eq_nil_iff, List.filter_eq_nil_iff] at none
    exact none x mem (by simp)
  have equal := run_congr s fun i => (sched.at_eq owned i).trans (same i).symm
  refine ⟨(exec_fst s _ l).trans equal.1, (exec_snd_perm nodup s _ labels).trans ?_⟩
  have nothing : (workers.flatMap fun _ => ([] : List O)) = [] := by
    rw [List.flatMap_eq_nil_iff]
    exact fun w _ => rfl
  rw [nothing, List.nil_append]
  exact equal.2

end Schedules

end Interleave

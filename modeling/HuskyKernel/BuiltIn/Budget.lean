import HuskyKernel.BuiltIn.Calculator
import Mathlib.Tactic.Linarith

/-!
# BuiltIn/Budget — how much of the heap a session takes

Nothing the shell hands out is ever given back, and a concatenation copies both of its operands: a
chain of them takes the sum of its suffixes.  Still a text never takes more than the square of its
length (`execute_top_le`).  So a session whose texts have squares that the heap has room for never
runs out of it: it goes through to its end, unless a division traps (`session_lasts`).
-/

namespace HuskyKernel

open Wp Msh

variable {h : Host} {a b : Env} {l r : Val} {s : Machine}

/-! ## What is handed out -/

/-- A value of at most `n` bytes, for which at most `room` bytes have been handed out. -/
structure Takes (n room : ℕ) (a : Env) (v : Val × Env) : Prop where
  text : v.1.text.length ≤ n
  top : v.2.top ≤ a.top + room

theorem Env.takes_fresh (v : MshVar) (text : List Byte) (a : Env) :
    Takes text.length (text.length + 1) a (a.fresh h v text) := by
  refine ⟨le_rfl, ?_⟩
  change (if a.Safe then a.top + (text.length + 1) else a.top) ≤ a.top + (text.length + 1)
  split
  · exact le_rfl
  · exact Nat.le_add_right _ _

/-- An operand takes no more than it is long. -/
theorem Prim.takes_value (p : Prim) (ha : a.Nameless) (hnull : a.null = []) :
    Takes p.text.length p.text.length a (p.value h a) := by
  cases p with
  | number d => exact ⟨Nat.zero_le _, Nat.le_add_right _ _⟩
  | string q =>
    have hfresh := Env.takes_fresh (h := h) { MshVar.zero with type := .str } q.text a
    have hlen : (string q).text.length = q.text.length + 1 + 1 := by
      rw [text, List.length_cons, List.length_append, List.length_singleton]
    exact ⟨hfresh.text.trans (by omega), hfresh.top.trans (by omega)⟩
  | var n =>
    rw [value, Env.read_none ((ha.evolves (a.evolves_identBuf n.name)).lookup n)]
    refine ⟨?_, Nat.le_add_right _ _⟩
    change a.null.length ≤ _
    rw [hnull]
    exact Nat.zero_le _
  | empty =>
    refine ⟨?_, Nat.le_add_right _ _⟩
    change a.null.length ≤ _
    rw [hnull]
    exact Nat.zero_le _

/-- **An operation takes at most a copy of both operands.** -/
theorem Op.takes_apply (o : Op) (l r : Val) (a : Env) :
    Takes (l.text.length + r.text.length) (l.text.length + r.text.length + 1) a
      (o.apply h l r a) := by
  rw [apply]
  cases hres : o.result h l r with
  | number | quotient | nothing | error =>
    exact ⟨Nat.le_add_right _ _, Nat.le_add_right _ _⟩
  | text bs =>
    obtain ⟨-, rfl⟩ := common_of_text hres
    rw [← List.length_append]
    exact Env.takes_fresh _ _ a

/-- **A phrase takes at most the square of its length** — induction on the phrase. -/
theorem Phrase.takes_value (f : Phrase) (ha : a.Nameless) (hnull : a.null = []) :
    Takes f.text.length (f.text.length ^ 2) a (f.value h a) := by
  induction f generalizing a with
  | last b p =>
    have hp := p.takes_value (h := h) ha hnull
    have hle : p.text.length ≤ (last b p).text.length := by
      rw [text, List.length_append]
      omega
    exact ⟨hp.text.trans hle, hp.top.trans (Nat.add_le_add_left
      (hle.trans (Nat.le_self_pow (by decide) _)) _)⟩
  | unclosed b q =>
    refine ⟨?_, Nat.le_add_right _ _⟩
    change a.null.length ≤ _
    rw [hnull]
    exact Nat.zero_le _
  | op b p b' o f ih =>
    have hp := p.takes_value (h := h) ha hnull
    have hpa := p.evolves_value (h := h) a
    have hf := ih (ha.evolves hpa) (hpa.null.trans hnull)
    have ho := o.takes_apply (h := h) (p.value h a).1 (f.value h (p.value h a).2).1
      (f.value h (p.value h a).2).2
    have hlen : p.text.length + f.text.length + 1 ≤ (op b p b' o f).text.length := by
      simp only [text, List.length_append, List.length_cons]
      omega
    have hsquare : f.text.length ^ 2 + (2 * p.text.length + f.text.length + 1) ≤
        (op b p b' o f).text.length ^ 2 := by
      refine le_trans ?_ (Nat.pow_le_pow_left hlen 2)
      nlinarith [Nat.zero_le (p.text.length * f.text.length)]
    have hvalue : (op b p b' o f).value h a = o.apply h (p.value h a).1
      (f.value h (p.value h a).2).1 (f.value h (p.value h a).2).2 := rfl
    rw [hvalue]
    refine ⟨ho.text.trans ?_, ho.top.trans ?_⟩
    · have := hp.text
      have := hf.text
      omega
    · have := hp.text
      have := hf.text
      have := hp.top
      have := hf.top
      omega

/-! ## Sentences -/

/-- Whatever comes of it, a sentence leaves no name in the table. -/
theorem Sentence.nameless_exec (c : Sentence) (ha : a.Nameless) : (c.exec h a).Nameless := by
  cases c with
  | skip => exact ha
  | name => exact ⟨ha.count, ha.name⟩
  | assign b n b' f b'' =>
    have hrhs : (rhs h n f a).2.Nameless :=
      ha.evolves ((a.evolves_identBuf n.name).trans (f.evolves_value _))
    change (if (rhs h n f a).2.hadError then (rhs h n f a).2
      else (rhs h n f a).2.assigned (rhs h n f a).1).Nameless
    obtain ⟨m, hm⟩ := f.identBuf_value (h := h) (a := { a with identBuf := n.name }) (n := n) rfl
    split
    · exact hrhs
    · rw [Env.assigned_nameless hrhs hm]
      split
      next hroom =>
        refine ⟨hroom, fun i hi => ?_⟩
        dsimp only at hi ⊢
        by_cases hlast : i = (rhs h n f a).2.varCount
        · rw [hlast, Function.update_self]
          exact f.name_value (ha.evolves (a.evolves_identBuf n.name))
        · rw [Function.update_of_ne hlast]
          exact hrhs.name i (by omega)
      · exact ⟨hrhs.count, hrhs.name⟩

/-- **A sentence takes at most the square of its length.** -/
theorem Sentence.exec_top_le (c : Sentence) (ha : a.Nameless) (hnull : a.null = []) :
    (c.exec h a).top ≤ a.top + c.text.length ^ 2 := by
  cases c with
  | skip | name => exact Nat.le_add_right _ _
  | assign b n b' f b'' =>
    have hrhs : Takes f.text.length (f.text.length ^ 2) { a with identBuf := n.name }
        (rhs h n f a) := f.takes_value (ha.evolves (a.evolves_identBuf n.name)) hnull
    have htop : ((assign b n b' f b'').exec h a).top = (rhs h n f a).2.top := by
      change (if (rhs h n f a).2.hadError then (rhs h n f a).2
        else (rhs h n f a).2.assigned (rhs h n f a).1).top = _
      split
      · rfl
      · rw [Env.assigned]
        split
        · rfl
        · split <;> rfl
    have hlen : f.text.length ≤ (assign b n b' f b'').text.length := by
      simp only [text, List.length_append, List.length_cons]
      omega
    rw [htop]
    exact hrhs.top.trans (Nat.add_le_add_left (Nat.pow_le_pow_left hlen 2) _)

/-- **So do all of them together** — induction on the sentences. -/
theorem Env.runAll_top_le (cs : List Sentence) (ha : a.Nameless) (hnull : a.null = []) :
    (runAll h cs a).top ≤ a.top + (cs.flatMap Sentence.text).length ^ 2 := by
  induction cs generalizing a with
  | nil => exact Nat.le_add_right _ _
  | cons c cs ih =>
    have hc := c.exec_top_le (h := h) ha hnull
    have hrest := ih (c.nameless_exec (h := h) ha) ((c.exec_grows a).null.trans hnull)
    have hsquare : c.text.length ^ 2 + (cs.flatMap Sentence.text).length ^ 2 ≤
        (c.text.length + (cs.flatMap Sentence.text).length) ^ 2 := by
      nlinarith [Nat.zero_le (c.text.length * (cs.flatMap Sentence.text).length)]
    rw [runAll, List.flatMap_cons, List.length_append]
    split
    · exact hc.trans (by omega)
    · exact hrest.trans (by omega)

/-- **A text takes at most the square of its length**, whatever it is, wherever the session has
come to. -/
theorem execute_top_le (hs : Lasting h s) (code : List Byte) :
    (s.env.execute h code).top ≤ s.heapIndex.toNat + code.length ^ 2 := by
  obtain ⟨-, hname, hnull⟩ := hs.kept
  obtain ⟨ys, hys, -⟩ := (cut_program code).text
  have hlen : ((program code).flatMap Sentence.text).length ≤ code.length := by
    conv_rhs => rw [hys]
    rw [List.length_append]
    exact Nat.le_add_right _ _
  have htop := Env.runAll_top_le (h := h) (a := { s.env with hadError := false }) (program code)
    ⟨hname.count, hname.name⟩ hnull
  exact htop.trans (Nat.add_le_add_left (Nat.pow_le_pow_left hlen 2) _)

/-! ## Sessions -/

/-- Texts given to `msh_execute`, one after the other, whatever comes of each. -/
def executeEach (h : Host) (n : ℕ) : List (List Byte) → Msh Unit
  | [] => return ()
  | code :: codes => do
      let _ ← mshExecute h n code
      executeEach h n codes

/-- What texts may take: the squares of their lengths. -/
def budget (codes : List (List Byte)) : ℕ := (codes.map fun code => code.length ^ 2).sum

/-- **A session goes on** as long as there is room for what its texts may take: nothing but a
division that traps stops it — induction on the texts. -/
theorem wp_executeEach {n : ℕ} (codes : List (List Byte)) (hs : Lasting h s)
    (hroom : s.heapIndex.toNat + budget codes ≤ heapSize.toNat)
    (hn : ∀ code ∈ codes, code.length < n) :
    wp (executeEach h n codes)
      (fun _ t => Lasting h t ∧ t.heapIndex.toNat ≤ s.heapIndex.toNat + budget codes)
      (fun x _ => x = .divTrap) s := by
  induction codes generalizing s with
  | nil => exact ⟨hs, Nat.le_add_right _ _⟩
  | cons code codes ih =>
    have hbudget : budget (code :: codes) = code.length ^ 2 + budget codes := by
      rw [budget, List.map_cons, List.sum_cons, budget]
    have hcode := hn code List.mem_cons_self
    have htop := execute_top_le hs code
    have hfit : (s.env.execute h code).top ≤ heapSize.toNat := by omega
    have hdenote := denote_text hs.kept.1.rep (Env.safe_env s) hcode hfit
    rw [executeEach, wp_bind]
    cases hrun : mshExecute h n code s with
    | ok b t =>
      obtain ⟨-, hrep, -⟩ := (wp_of_ok hrun).mp hdenote
      have hindex : t.heapIndex.toNat ≤ s.heapIndex.toNat + code.length ^ 2 := hrep.top ▸ htop
      rw [wp_of_ok hrun]
      refine wp_mono (ih (hs.call hcode hfit hrun) (by omega) fun code hc =>
        hn code (List.mem_cons_of_mem _ hc)) (fun _ u hu => ⟨hu.1, ?_⟩) fun _ _ => id
      have := hu.2
      omega
    | error x t =>
      obtain ⟨rfl, -⟩ := (wp_of_error hrun).mp hdenote
      rw [wp_of_error hrun]

/-- **No session runs out of memory** whose texts have squares that the heap has room for, whatever
the texts: from `msh_init` on it goes through to its end, with at most that much handed out and the
table well stored, or a division traps. -/
theorem session_lasts (codes : List (List Byte)) {n : ℕ} (h0 : s.mem 0 = 0)
    (hroom : s.heapIndex.toNat + budget codes ≤ heapSize.toNat)
    (hn : ∀ code ∈ codes, code.length < n) :
    (∃ t, executeEach h n codes (mshInit s) = .ok () t ∧ t.WellStored h ∧
        t.heapIndex.toNat ≤ s.heapIndex.toNat + budget codes) ∨
      ∃ t, executeEach h n codes (mshInit s) = .error .divTrap t := by
  have hsession := wp_executeEach (h := h) (n := n) codes (.init h0) hroom hn
  cases hrun : executeEach h n codes (mshInit s) with
  | ok a t =>
    obtain ⟨hlasting, hindex⟩ := (wp_of_ok hrun).mp hsession
    exact .inl ⟨t, rfl, hlasting.kept.1, hindex⟩
  | error x t =>
    obtain rfl := (wp_of_error hrun).mp hsession
    exact .inr ⟨t, rfl⟩

/-- The second of two texts is an error. -/
theorem session_lasts_two :
    (∃ t, executeEach Host.bare 20 [str "x = \"a\" + \"b\"", str "y = x"]
        (mshInit Machine.boot) = .ok () t ∧ t.WellStored Host.bare ∧
        t.heapIndex.toNat ≤ Machine.boot.heapIndex.toNat +
          budget [str "x = \"a\" + \"b\"", str "y = x"]) ∨
      ∃ t, executeEach Host.bare 20 [str "x = \"a\" + \"b\"", str "y = x"]
        (mshInit Machine.boot) = .error .divTrap t :=
  session_lasts _ rfl (by decide +kernel) (by decide +kernel)

end HuskyKernel

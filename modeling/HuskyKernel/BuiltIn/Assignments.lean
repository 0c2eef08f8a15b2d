import HuskyKernel.BuiltIn.Denote

/-!
# BuiltIn/Assignments — programs of assignments

What `msh_execute` does on a program of assignments (`denote_mshExecute`): what they mean, one after
another up to the first that fails.  The machine to start from need not know of any text — it is
enough that its table is `WellStored`, which every such program keeps.
-/

namespace HuskyKernel

open Wp Scan Msh

/-! ## Tables -/

namespace Machine

/-- Whatever a machine has at an address, up to a NUL. -/
def textAt (s : Machine) (p : Word) : List Byte := (s.mem.cstr? p).getD []

/-- What the meaning of a program starts from. -/
def env (s : Machine) : Env where
  vars i := ⟨s.vars i, s.textAt (s.vars i).val⟩
  varCount := s.varCount
  top := s.heapIndex.toNat
  hadError := s.hadError
  identBuf := s.identBuf
  null := s.textAt 0
  divisions := []

/-- A string that can be read, and that no `malloc` is going to hand out. -/
def HasText (h : Host) (s : Machine) (p : Word) : Prop :=
  Str h.heap s.mem s.heapIndex.toNat p (s.textAt p)

/-- What is in the table, and is not a number, has a text; so has NULL. -/
structure WellStored (h : Host) (s : Machine) : Prop where
  texts : ∀ i < s.varCount, (s.vars i).type ≠ .int → (s.vars i).type ≠ .float →
    s.HasText h (s.vars i).val
  null : s.HasText h 0

variable {h : Host} {s : Machine} {a : Env}

theorem WellStored.rep (hs : s.WellStored h) : Rep h s s.env :=
  ⟨fun _ => rfl, rfl, rfl, rfl, rfl, hs.texts, hs.null⟩

theorem Str.textAt {p : Word} {text : List Byte} {i : ℕ} (hs : Str h.heap s.mem i p text) :
    s.textAt p = text := by
  rw [Machine.textAt, hs.text]
  rfl

end Machine

variable {h : Host} {s t u : Machine} {a b : Env} {v : MshVar} {tail : List Byte}

/-- A NUL at address 0 is a string for NULL. -/
theorem Machine.HasText.null (h0 : s.mem 0 = 0) : s.HasText h 0 := by
  have htext : s.mem.cstr? 0 = some [] := Mem.cstr?_eq_some.mpr
    ⟨List.not_mem_nil, by decide +kernel, congrArg (fun b => [b]) h0⟩
  have hstr : Str h.heap s.mem s.heapIndex.toNat 0 [] := by
    refine ⟨htext, fun x hx hfree => ?_⟩
    rw [Within, sub_zero, List.length_nil] at hx
    have hlow := hfree.1
    have hbase := h.heap.base_pos
    omega
  rw [Machine.HasText, Machine.Str.textAt hstr]
  exact hstr

/-- A table of numbers is well stored. -/
theorem Machine.WellStored.of_numbers (h0 : s.mem 0 = 0)
    (hnum : ∀ i < s.varCount, (s.vars i).type = .int) : s.WellStored h :=
  ⟨fun i hi hint => absurd (hnum i hi) hint, .null h0⟩

/-- A machine in a state with a meaning is well stored. -/
theorem Rep.wellStored (hr : Rep h s a) : s.WellStored h := by
  have htext {p : Word} {text : List Byte} (hs : Str h.heap s.mem a.top p text) :
      s.HasText h p := by
    rw [Machine.HasText, Machine.Str.textAt hs, hr.top]
    exact hs
  refine ⟨fun i hi hint hfloat => ?_, htext hr.null⟩
  rw [hr.vars i] at hint hfloat ⊢
  exact htext (hr.texts i (hr.varCount ▸ hi) hint hfloat)

/-! ## A statement -/

/-- A value in an entry of a table of `n` entries. -/
theorem Rep.update {i n : ℕ} {p : Val} (hr : Rep h s a) (hp : Shows h s.mem a.top p)
    (hn : ∀ j < n, j ≠ i → j < a.varCount) :
    Rep h { s with vars := Function.update s.vars i p.var, varCount := n }
      { a with vars := Function.update a.vars i p, varCount := n } := by
  refine ⟨fun j => ?_, rfl, hr.top, hr.hadError, hr.identBuf, fun j hj => ?_, hr.null⟩
  · by_cases hji : j = i
    · subst hji
      simp only [Function.update_self]
    · simp only [Function.update_of_ne hji]
      exact hr.vars j
  · by_cases hji : j = i
    · subst hji
      simp only [Function.update_self]
      exact hp
    · simp only [Function.update_of_ne hji]
      exact hr.texts j (hn j hj hji)

/-- **A value is stored where it should be.** -/
theorem Rep.assigned {p : Val} (hr : Rep h s a) (hp : Shows h s.mem a.top p) :
    Rep h (Msh.assigned s p.var) (a.assigned p) := by
  have hlookup : a.lookup a.identBuf = s.lookup s.identBuf := by rw [hr.identBuf, hr.lookup]
  rw [Env.assigned, hlookup]
  obtain ⟨i, hl, ht⟩ | ⟨hl, hc, ht⟩ | ⟨hl, hc, ht⟩ := assigned_cases s p.var
  · rw [ht, hl]
    exact (hr.update hp fun _ hj _ => hj).congr rfl hr.varCount rfl rfl rfl rfl
  · rw [hr.varCount] at hc
    simp only [ht, hl, if_pos hc]
    have hnew : ∀ j < a.varCount + 1, j ≠ a.varCount → j < a.varCount := fun j hj hne => by omega
    refine (hr.update hp hnew).congr ?_ ?_ rfl rfl rfl rfl
    · rw [← hr.varCount]
      rfl
    · rw [← hr.varCount]
      rfl
  · rw [hr.varCount] at hc
    simp only [ht, hl, if_neg (Nat.not_lt.mpr hc)]
    exact hr.fail

/-- **An assignment does what it means**, or traps. -/
theorem denote_plainStmt {c : Assign} (hr : Rep h s a) (hsafe : a.Safe)
    (hrest : (skipped s).rest = c.text ++ tail) (hc : c.expr.Complete) (he : c.expr.Ends tail)
    (hfit : (c.exec h a).top ≤ heapSize.toNat) :
    wp (plainStmt h) (fun _ t => Rep h t (c.exec h a) ∧ (c.exec h a).Safe ∧
      t.rest = tail.dropWhile isspace) (fun x _ => Trapped (c.exec h a) x) s.seen := by
  obtain ⟨ha, heq, hexpr, hbuf⟩ := rhs_text hrest
  have hskipped : Rep h (skipped s) a := hr.congr rfl rfl rfl rfl rfl rfl
  have hparsed : Rep h (parsed (skipped s)) { a with identBuf := c.target.name } :=
    hskipped.named rfl rfl rfl rfl hbuf rfl
  have hnamed : Rep h (named s) _ := hparsed.congr rfl rfl rfl rfl rfl rfl
  have hrhs : Rep h (rhs s) _ := hnamed.congr rfl rfl rfl rfl rfl rfl
  have hgrows := c.rhs_grows (h := h) a
  have hfit' : (c.rhs h a).2.top ≤ heapSize.toNat := hgrows.top.trans hfit
  have heval : wp (evalExpr h) (Yields h (rhs s) (c.rhs h a))
      (fun x _ => Trapped (c.rhs h a).2 x) (rhs s) := denote_evalExpr hrhs hsafe hexpr hc he hfit'
  refine wp_plainStmt.mpr ⟨fun _ => ⟨fun _ => ?_, fun hne => absurd heq hne⟩,
    fun ha' => absurd (ha.symm.trans ha') Bool.noConfusion⟩
  refine wp_mono (wp_and heval (evalExpr_text h hexpr he)) (fun v u hu => ?_)
    fun x _ hx => hx.1.grows hgrows
  obtain ⟨hy, hafter⟩ := hu
  have hsafe' : (c.exec h a).Safe := c.safe_exec hy.safe
  obtain rfl := hy.var
  rw [hy.rep.hadError]
  rw [c.exec_eq] at hsafe' ⊢
  by_cases herr : (c.rhs h a).2.hadError = true
  · rw [if_pos herr] at hsafe' ⊢
    rw [if_pos herr]
    exact ⟨hy.rep, hsafe', hafter.rest⟩
  · rw [if_neg herr] at hsafe' ⊢
    rw [if_neg herr]
    refine ⟨hy.rep.assigned hy.shown, hsafe', ?_⟩
    rw [Machine.rest, assigned_code, assigned_pc, ← Machine.rest, hafter.rest]

/-! ## A program -/

/-- In front of `cs`, with blanks between them, and nothing behind. -/
def Ahead : List Assign → List Byte → Prop
  | [], xs => xs.headD 0 = 0
  | c :: cs, xs => ∃ tail, xs.dropWhile isspace = c.text ++ tail ∧ c.expr.Complete ∧
      c.expr.Ends tail ∧ Ahead cs (tail.dropWhile isspace)

/-- **The main loop runs the assignments in front of it**, up to the first that fails — induction on
them. -/
theorem denote_mshLoop (cs : List Assign) {n : ℕ} {s : Machine} {a : Env} (hr : Rep h s a)
    (hsafe : a.Safe) (herr : a.hadError = false) (hcs : Ahead cs s.rest) (hn : cs.length < n)
    (hfit : (Env.run h cs a).top ≤ heapSize.toNat) :
    wp (mshLoop (plainStmt h) n) (fun _ t => Rep h t (Env.run h cs a) ∧ (Env.run h cs a).Safe)
      (fun x _ => Trapped (Env.run h cs a) x) s := by
  have hstop {b : Env} {t : Machine} {m : ℕ} (hm : 0 < m) (hb : Rep h t b) (hbs : b.Safe)
      (hend : t.cur = 0 ∨ t.hadError = true) : wp (mshLoop (plainStmt h) m)
        (fun _ u => Rep h u b ∧ b.Safe) (fun x _ => Trapped b x) t := by
    obtain ⟨m, rfl⟩ := Nat.exists_eq_add_of_lt hm
    rw [Nat.zero_add, wp, mshLoop_succ, if_neg (final_iff.mp hend)]
    exact ⟨hb.congr rfl rfl rfl rfl rfl rfl, hbs⟩
  induction cs generalizing n s a with
  | nil => exact hstop (Nat.zero_lt_of_lt hn) hr hsafe (.inl ((cur_eq rfl).trans hcs))
  | cons c cs ih =>
    obtain ⟨n, rfl⟩ : ∃ m, n = m + 1 := ⟨n - 1, by omega⟩
    obtain ⟨tail, htext, hcomp, hends, hcs⟩ := hcs
    have hrest : (skipped s).rest = c.text ++ tail := (rest_skipped s).trans htext
    have hgo : s.cur ≠ 0 ∧ s.hadError = false :=
      ⟨cur_ne_zero_of_isalpha (rhs_text hrest).1, hr.hadError.trans herr⟩
    have hlen : cs.length < n := Nat.lt_of_succ_lt_succ hn
    rw [wp, mshLoop_succ, if_pos hgo]
    rw [Env.run] at hfit ⊢
    cases hfail : (c.exec h a).hadError with
    | true =>
      simp only [hfail, if_true] at hfit ⊢
      refine wp_bind.mpr (wp_mono (denote_plainStmt hr hsafe hrest hcomp hends hfit)
        (fun _ t ht => ?_) fun _ _ => id)
      exact hstop (Nat.zero_lt_of_lt hlen) ht.1 ht.2.1 (.inr (ht.1.hadError.trans hfail))
    | false =>
      simp only [hfail, Bool.false_eq_true, if_false] at hfit ⊢
      have hgrows := Env.run_grows (h := h) cs (c.exec h a)
      refine wp_bind.mpr (wp_mono
        (denote_plainStmt hr hsafe hrest hcomp hends (hgrows.top.trans hfit)) (fun _ t ht => ?_)
        fun _ _ hx => hx.grows hgrows)
      obtain ⟨hrep, hs, hrest'⟩ := ht
      exact ih hrep hs hfail (hrest' ▸ hcs) hlen hfit

/-- **A call of `msh_execute` on a program of assignments does what they mean**, or traps. -/
theorem denote_mshExecute {cs : List Assign} {code : List Byte} {n : ℕ} (hr : Rep h s a)
    (hsafe : a.Safe) (hcs : Ahead cs code) (hn : cs.length < n)
    (hfit : (Env.run h cs { a with hadError := false }).top ≤ heapSize.toNat) :
    wp (mshExecute h n code) (fun r t =>
        r = !(Env.run h cs { a with hadError := false }).hadError ∧
        Rep h t (Env.run h cs { a with hadError := false }) ∧
        (Env.run h cs { a with hadError := false }).Safe)
      (fun x _ => Trapped (Env.run h cs { a with hadError := false }) x) s := by
  obtain ⟨n, rfl⟩ : ∃ m, n = m + 1 := ⟨n - 1, by omega⟩
  have hentered : Rep h (enter code s) { a with hadError := false } :=
    ⟨hr.vars, hr.varCount, hr.top, rfl, hr.identBuf, hr.texts, hr.null⟩
  rw [wp, mshExecute_succ]
  refine wp_bind.mpr (wp_mono (denote_mshLoop cs hentered hsafe rfl hcs hn hfit)
    (fun _ t ht => ?_) fun _ _ => id)
  exact ⟨by rw [← ht.1.hadError], ht.1, ht.2⟩

end HuskyKernel

import HuskyKernel.Kernel.Screen

/-!
# Kernel/Ring — the terminal as a ring of 2000 cells

Row and column count the cells of the screen, and a character moves them on by one, from the last
cell to the first: text runs round the screen as round a ring (`terminal_ring`).  A backspace moves
them back by one, but at the first cell it stays: it takes text back exactly if that has not run
over the end of the screen (`undoes_iff`).
-/

namespace HuskyKernel

namespace Screen

variable {s : Screen} {c : Byte} {data : List Byte}

/-- `terminal_write`. -/
def terminalWrite (data : List Byte) (s : Screen) : Screen := data.foldl (fun s c => s.putchar c) s

/-- A character that goes into a cell. -/
def Advances (c : Byte) : Prop := c ≠ chr '\n' ∧ c ≠ 0x08

theorem terminalWrite_append (data data' : List Byte) (s : Screen) :
    s.terminalWrite (data ++ data') = (s.terminalWrite data).terminalWrite data' :=
  List.foldl_append

theorem onScreen_terminalWrite (h : OnScreen s) (data : List Byte) :
    OnScreen (s.terminalWrite data) := by
  induction data generalizing s with
  | nil => exact h
  | cons c data ih => exact ih (onScreen_putchar h c)

/-! ## One character -/

theorem position_newline (h : s.row < height) :
    s.newline.position = (s.row.toNat * 80 + 80) % 2000 := by
  have hrow : s.row.toNat < 25 := h
  have hnext : (s.row + 1).toNat = s.row.toNat + 1 := by bv_omega
  simp only [newline]
  split_ifs with hbottom
  · have hlast : s.row.toNat + 1 = 25 := hnext.symm.trans (congrArg BitVec.toNat hbottom)
    rw [show s.row.toNat * 80 + 80 = 2000 by omega, Nat.mod_self]
    rfl
  · have hnot : s.row.toNat + 1 ≠ 25 := fun heq =>
      hbottom (BitVec.eq_of_toNat_eq (hnext.trans heq))
    rw [position, hnext, Nat.mod_eq_of_lt (by omega)]
    exact Nat.succ_mul _ _

theorem color_newline : s.newline.color = s.color := by
  simp only [newline]
  split_ifs <;> rfl

/-- A character in its cell, and the terminal at the next one. -/
structure Typed (c : Byte) (s t : Screen) : Prop where
  position : t.position = (s.position + 1) % 2000
  color : t.color = s.color
  cells : t.cells = Function.update s.cells (BitVec.ofNat 32 s.position) (vgaEntry c s.color)

/-- **One character**: the terminal is a ring. -/
theorem typed_putchar (h : OnScreen s) (hc : Advances c) : Typed c s (s.putchar c) := by
  have hcolumn : s.column.toNat < 80 := h.column
  have hrow : s.row.toNat < 25 := h.row
  have hnext : (s.column + 1).toNat = s.column.toNat + 1 := by bv_omega
  have hcells : (s.putentryat c s.color s.column s.row).cells =
      Function.update s.cells (BitVec.ofNat 32 s.position) (vgaEntry c s.color) := by
    rw [← index_eq h]
    rfl
  simp only [putchar]
  rw [if_neg hc.1, if_neg hc.2]
  split_ifs with hend
  · have hlast : s.column.toNat + 1 = 80 := hnext.symm.trans (congrArg BitVec.toNat hend)
    refine ⟨?_, color_newline, (funext fun _ => cells_newline).trans hcells⟩
    have hposition : s.position + 1 = s.row.toNat * 80 + 80 := by
      rw [position]
      omega
    rw [hposition]
    exact position_newline h.row
  · have hnot : s.column.toNat + 1 ≠ 80 := fun heq =>
      hend (BitVec.eq_of_toNat_eq (hnext.trans heq))
    have hposition : s.row.toNat * 80 + (s.column + 1).toNat = s.position + 1 := by
      rw [position, hnext]
      rfl
    refine ⟨hposition.trans (Nat.mod_eq_of_lt ?_).symm, rfl, hcells⟩
    rw [position]
    omega

/-- A backspace: the terminal one cell back, and that cell blank. -/
structure Erased (s t : Screen) : Prop where
  position : t.position = s.position - 1
  color : t.color = s.color
  cells : t.cells =
    Function.update s.cells (BitVec.ofNat 32 (s.position - 1)) (vgaEntry (chr ' ') s.color)

theorem color_back : s.back.color = s.color := by
  rw [back]
  split_ifs <;> rfl

theorem position_back (h : OnScreen s) : s.back.position = s.position - 1 := by
  have hrow : s.row.toNat < 25 := h.row
  have hcolumn : s.column.toNat < 80 := h.column
  rw [back]
  split_ifs with hcol hrow'
  · have hpos : 0 < s.column.toNat := hcol
    have hprev : (s.column - 1).toNat = s.column.toNat - 1 := by bv_omega
    simp only [position, hprev]
    omega
  · have hpos : 0 < s.row.toNat := hrow'
    have hzero : ¬ 0 < s.column.toNat := hcol
    have hprev : (s.row - 1).toNat = s.row.toNat - 1 := by bv_omega
    simp only [position, hprev, show (width - 1).toNat = 79 from rfl]
    omega
  · have hzero : ¬ 0 < s.column.toNat := hcol
    have hzero' : ¬ 0 < s.row.toNat := hrow'
    simp only [position]
    omega

/-- **One backspace**: the ring is open at the first cell. -/
theorem erased_putchar (h : OnScreen s) : Erased s (s.putchar 0x08) := by
  refine ⟨position_back h, color_back, ?_⟩
  have hcells : (s.putchar 0x08).cells = Function.update s.back.cells
      (s.back.row * width + s.back.column) (vgaEntry (chr ' ') s.back.color) := rfl
  rw [hcells, index_eq (onScreen_back h), position_back h, color_back,
    show s.back.cells = s.cells from funext fun _ => cells_back]

/-! ## Text -/

theorem ofNat_ne {i j : ℕ} (hi : i < 2000) (hj : j < 2000) (hne : i ≠ j) :
    BitVec.ofNat 32 i ≠ BitVec.ofNat 32 j := by
  intro heq
  have hnat := congrArg BitVec.toNat heq
  rw [BitVec.toNat_ofNat, BitVec.toNat_ofNat, Nat.mod_eq_of_lt (by omega),
    Nat.mod_eq_of_lt (by omega)] at hnat
  exact hne hnat

/-- Text, written round the ring: a cell holds the last character that went there. -/
structure Written (data : List Byte) (s t : Screen) : Prop where
  onScreen : OnScreen t
  position : t.position = (s.position + data.length) % 2000
  color : t.color = s.color
  last : ∀ j c, data[j]? = some c → (∀ i, j < i → i < data.length →
    (s.position + i) % 2000 ≠ (s.position + j) % 2000) →
      t.cells (BitVec.ofNat 32 ((s.position + j) % 2000)) = vgaEntry c s.color
  other : ∀ k : Word, (∀ j < data.length, (s.position + j) % 2000 ≠ k.toNat) →
    t.cells k = s.cells k

/-- One character more. -/
theorem Written.snoc {t : Screen} (h : Written data s t) (hc : Advances c) :
    Written (data ++ [c]) s (t.putchar c) := by
  obtain ⟨hposition, hcolor, hcells⟩ := typed_putchar h.onScreen hc
  have hlt := position_lt h.onScreen
  rw [h.position, h.color] at hcells
  have hmod : ∀ i, (s.position + i) % 2000 < 2000 := fun i => Nat.mod_lt _ (by decide)
  refine ⟨onScreen_putchar h.onScreen c, ?_, hcolor.trans h.color, fun j d hd hlast => ?_,
    fun k hk => ?_⟩
  · rw [hposition, h.position, Nat.mod_add_mod, List.length_append, Nat.add_assoc]
    rfl
  · rw [hcells]
    rcases Nat.lt_or_ge j data.length with hj | hj
    · rw [List.getElem?_append_left hj] at hd
      have hlast' := hlast data.length hj (by rw [List.length_append]; exact Nat.lt_succ_self _)
      rw [Function.update_of_ne (ofNat_ne (hmod j) (hmod data.length) hlast'.symm)]
      refine h.last j d hd fun i hji hi => hlast i hji ?_
      rw [List.length_append]
      exact hi.trans (Nat.lt_succ_self _)
    · obtain ⟨hj', -⟩ := List.getElem?_eq_some_iff.mp hd
      rw [List.length_append, List.length_singleton] at hj'
      obtain rfl : j = data.length := by omega
      rw [List.getElem?_append_right (Nat.le_refl _), Nat.sub_self] at hd
      rw [← Option.some.inj hd]
      exact Function.update_self ..
  · have hne : k ≠ BitVec.ofNat 32 ((s.position + data.length) % 2000) := by
      rintro rfl
      refine hk data.length (by rw [List.length_append]; exact Nat.lt_succ_self _) ?_
      rw [BitVec.toNat_ofNat, Nat.mod_eq_of_lt ((hmod data.length).trans (by decide))]
    rw [hcells, Function.update_of_ne hne]
    refine h.other k fun j hj => hk j ?_
    rw [List.length_append]
    exact hj.trans (Nat.lt_succ_self _)

/-- **Text runs round the ring.** -/
theorem written_terminalWrite (h : OnScreen s) (hdata : ∀ c ∈ data, Advances c) :
    Written data s (s.terminalWrite data) := by
  induction data using List.reverseRecOn with
  | nil =>
    refine ⟨h, (Nat.mod_eq_of_lt (position_lt h)).symm, rfl, fun j c hc => ?_, fun _ _ => rfl⟩
    cases hc
  | append_singleton data c ih =>
    rw [terminalWrite_append]
    exact (ih fun d hd => hdata d (List.mem_append_left _ hd)).snoc
      (hdata c (List.mem_append_right _ (List.mem_singleton.mpr rfl)))

/-- **The terminal is a ring of 2000 cells**: a character stays in it, and text runs round it. -/
theorem terminal_ring (s : Screen) (h : OnScreen s) :
    (∀ c, OnScreen (s.putchar c) ∧
      ∀ i : Word, 2000 ≤ i.toNat → (s.putchar c).cells i = s.cells i) ∧
    ∀ data : List Byte, (∀ c ∈ data, Advances c) → Written data s (s.terminalWrite data) :=
  ⟨fun c => ⟨onScreen_putchar h c, fun _ hi => cells_putchar h c hi⟩,
    fun _ hdata => written_terminalWrite h hdata⟩

/-- The last cell of an empty screen. -/
def lastCell : Screen := ⟨24, 79, lightGrey, fun _ => vgaEntry (chr ' ') lightGrey⟩

theorem onScreen_lastCell : OnScreen lastCell := ⟨by decide, by decide⟩

theorem terminal_ring_lastCell :
    (∀ c, OnScreen (lastCell.putchar c) ∧
      ∀ i : Word, 2000 ≤ i.toNat → (lastCell.putchar c).cells i = lastCell.cells i) ∧
    ∀ data : List Byte, (∀ c ∈ data, Advances c) →
      Written data lastCell (lastCell.terminalWrite data) :=
  terminal_ring lastCell onScreen_lastCell

/-! ## Taking it back -/

/-- `n` backspaces. -/
def backspaces (n : ℕ) : List Byte := List.replicate n 0x08

/-- Backspaces go back to the first cell, and no further. -/
theorem position_backspaces (h : OnScreen s) (n : ℕ) :
    (s.terminalWrite (backspaces n)).position = s.position - n := by
  induction n generalizing s with
  | zero => rfl
  | succ n ih =>
    have hback := ih (onScreen_putchar h 0x08)
    rw [(erased_putchar h).position] at hback
    exact hback.trans (by omega)

/-- Up to there they blank the cells they go back over. -/
theorem cells_backspaces (h : OnScreen s) {n : ℕ} (hn : n ≤ s.position) (k : Word) :
    (s.terminalWrite (backspaces n)).cells k =
      if s.position - n ≤ k.toNat ∧ k.toNat < s.position then vgaEntry (chr ' ') s.color
      else s.cells k := by
  induction n generalizing s with
  | zero => exact (if_neg fun hk => absurd hk.1 (not_le.mpr hk.2)).symm
  | succ n ih =>
    obtain ⟨hposition, hcolor, hcells⟩ := erased_putchar h
    have hrest := ih (onScreen_putchar h 0x08) (by rw [hposition]; exact Nat.le_sub_one_of_lt hn)
    rw [hposition, hcolor, hcells] at hrest
    refine hrest.trans ?_
    by_cases hk : k.toNat = s.position - 1
    · have hcell : k = BitVec.ofNat 32 (s.position - 1) := by
        rw [← hk, BitVec.ofNat_toNat, BitVec.setWidth_eq]
      rw [if_neg (by omega), if_pos (by omega), hcell, Function.update_self]
    · have hlt := position_lt h
      have hcell : k ≠ BitVec.ofNat 32 (s.position - 1) := by
        rintro rfl
        rw [BitVec.toNat_ofNat, Nat.mod_eq_of_lt (by omega)] at hk
        exact hk rfl
      rw [Function.update_of_ne hcell]
      exact if_congr (by omega) rfl rfl

/-- The row and the column, from the number of the cell. -/
theorem cursor_eq {t : Screen} (h : OnScreen s) (ht : OnScreen t) (hp : t.position = s.position) :
    t.row = s.row ∧ t.column = s.column := by
  have hcolumn : s.column.toNat < 80 := h.column
  have hcolumn' : t.column.toNat < 80 := ht.column
  rw [position, position] at hp
  exact ⟨BitVec.eq_of_toNat_eq (by omega), BitVec.eq_of_toNat_eq (by omega)⟩

/-- The terminal is where it was, the cells that `data` went to are blank, and no other cell has
changed. -/
structure Undone (data : List Byte) (s t : Screen) : Prop where
  row : t.row = s.row
  column : t.column = s.column
  blank : ∀ j < data.length,
    t.cells (BitVec.ofNat 32 ((s.position + j) % 2000)) = vgaEntry (chr ' ') s.color
  other : ∀ k : Word, (∀ j < data.length, (s.position + j) % 2000 ≠ k.toNat) →
    t.cells k = s.cells k

/-- Text, and as many backspaces. -/
def retyped (data : List Byte) (s : Screen) : Screen :=
  (s.terminalWrite data).terminalWrite (backspaces data.length)

theorem Undone.position {t : Screen} (h : Undone data s t) : t.position = s.position := by
  rw [Screen.position, h.row, h.column]
  rfl

/-- Where the screen ends behind the text, backspaces go back over all of it. -/
theorem undone_retyped (h : OnScreen s) (hdata : ∀ c ∈ data, Advances c)
    (hfits : s.position + data.length < 2000) : Undone data s (s.retyped data) := by
  have hwritten := written_terminalWrite h hdata
  have hpos : (s.terminalWrite data).position = s.position + data.length := by
    rw [hwritten.position, Nat.mod_eq_of_lt hfits]
  have hcells := cells_backspaces hwritten.onScreen (n := data.length)
    (by rw [hpos]; exact Nat.le_add_left _ _)
  rw [hpos, hwritten.color, Nat.add_sub_cancel] at hcells
  have hcursor := cursor_eq h (onScreen_terminalWrite hwritten.onScreen (backspaces data.length))
    (by rw [position_backspaces hwritten.onScreen, hpos, Nat.add_sub_cancel])
  refine ⟨hcursor.1, hcursor.2, fun j hj => ?_, fun k hk => ?_⟩
  · have hcell : (s.position + j) % 2000 = s.position + j := Nat.mod_eq_of_lt (by omega)
    have hnat : (BitVec.ofNat 32 (s.position + j)).toNat = s.position + j := by
      rw [BitVec.toNat_ofNat, Nat.mod_eq_of_lt (by omega)]
    rw [hcell, retyped, hcells, hnat, if_pos ⟨Nat.le_add_right _ _, Nat.add_lt_add_left hj _⟩]
  · have hout : ¬ (s.position ≤ k.toNat ∧ k.toNat < s.position + data.length) := fun hin =>
      hk (k.toNat - s.position) (by omega) (by rw [Nat.mod_eq_of_lt (by omega)]; omega)
    rw [retyped, hcells, if_neg hout]
    exact hwritten.other k hk

/-- **Backspaces take text back** exactly if it has not run over the end of the screen. -/
theorem undoes_iff (s : Screen) (h : OnScreen s) (data : List Byte)
    (hdata : ∀ c ∈ data, Advances c) (hlen : data.length < 2000) :
    Undone data s (s.retyped data) ↔ s.position + data.length < 2000 := by
  refine ⟨fun hundone => ?_, undone_retyped h hdata⟩
  by_contra hover
  have hlt := position_lt h
  have hwritten := written_terminalWrite h hdata
  have hpos := position_backspaces hwritten.onScreen data.length
  rw [hwritten.position] at hpos
  have hback : (s.position + data.length) % 2000 - data.length = s.position :=
    hpos.symm.trans hundone.position
  omega

/-- Two cells from the end of a row, on a screen full of `x`. -/
def rowEnd : Screen := ⟨3, 78, lightGrey, fun _ => vgaEntry (chr 'x') lightGrey⟩

/-- A word that is broken at the end of the row is taken back. -/
theorem undoes_rowEnd : Undone (str "word") rowEnd (rowEnd.retyped (str "word")) := by
  have hadvances : ∀ c ∈ str "word", Advances c := by
    have hall : ∀ c ∈ str "word", c ≠ chr '\n' ∧ c ≠ 0x08 := by decide +kernel
    exact hall
  exact (undoes_iff rowEnd ⟨by decide, by decide⟩ (str "word") hadvances (by decide)).mpr
    (by decide)

/-- A character in the last cell is not taken back. -/
theorem not_undone_lastCell : ¬ ∀ (s : Screen) (data : List Byte), OnScreen s →
    (∀ c ∈ data, Advances c) → data.length < 2000 → Undone data s (s.retyped data) := by
  intro hall
  have hundone := hall lastCell [chr 'a'] onScreen_lastCell
    (fun c hc => by rw [List.mem_singleton.mp hc]; exact ⟨by decide, by decide⟩) (by decide)
  exact absurd hundone.row (by decide +kernel)

end Screen

end HuskyKernel

import Swig4Ada.Lib.Loop
import Swig4Ada.CParse.Specialisation

/-!
# The specialisation that is chosen

Row `r` of the matrix belongs to the `r`-th possible partial specialisation: a
candidate that is rejected leaves a row half written, and the next one writes it
over. From this the loops read only cells that were written, and what they flag is
the order of the priorities: a row is flagged throughout exactly when no matching
specialisation has a higher priority in any parameter.

The code takes the first of these in the order of declaration, and says that the
instantiation is ambiguous when there are more. So its choice depends on the
declarations when several are rated best at once.
-/

namespace Swig4Ada.CParse

open Swig4Ada.Lib

variable {Node : Type} (T : TemplateTable Node) (parms : List TemplateParm)

/-! ## Matching and priorities -/

instance (c : Partial) : Decidable (Matching T parms c) :=
  inferInstanceAs (Decidable (c.partialparms.length = parms.length ∧
    ∀ r ∈ parmMatches T 1 parms c.partialparms, r.1.isMatch = true))

/-- How it is rated in a parameter. -/
def priority (c : Partial) (col : Nat) : Int :=
  ((parmMatches T 1 parms c.partialparms)[col]?.map Prod.snd).getD 0

/-- It is rated in every parameter as high as every one of the list. -/
def AtLeastAll (possible : List Partial) (c : Partial) : Prop :=
  ∀ d ∈ possible, ∀ col < parms.length, priority T parms d col ≤ priority T parms c col

instance (possible : List Partial) (c : Partial) : Decidable (AtLeastAll T parms possible c) :=
  inferInstanceAs (Decidable (∀ d ∈ possible, ∀ col < parms.length,
    priority T parms d col ≤ priority T parms c col))

/-- It matches, and no matching one is rated higher in any parameter. -/
def Best (partials : List Partial) (c : Partial) : Prop :=
  c ∈ partials ∧ Matching T parms c ∧
    AtLeastAll T parms (partials.filter fun d => Matching T parms d) c

instance (partials : List Partial) (c : Partial) : Decidable (Best T parms partials c) :=
  inferInstanceAs (Decidable (c ∈ partials ∧ Matching T parms c ∧
    AtLeastAll T parms (partials.filter fun d => Matching T parms d) c))

theorem parmMatches_length {i : Nat} {ps : List TemplateParm} {pps : List (List Char)}
    (h : pps.length = ps.length) : (parmMatches T i ps pps).length = ps.length := by
  induction ps generalizing i pps with
  | nil => rfl
  | cons p ps ih =>
      cases pps with
      | nil => cases h
      | cons pp pps =>
          rw [parmMatches, List.length_cons, ih (by simpa using h), List.length_cons]

theorem doesParmMatch_nonneg {type partialParmType base : List Char}
    (h : (doesParmMatch T type partialParmType base).1.isMatch = true) :
    0 ≤ (doesParmMatch T type partialParmType base).2 := by
  simp only [doesParmMatch] at h ⊢
  split
  · rename_i h₁
    rw [if_pos h₁] at h
    split
    · exact Int.natCast_nonneg _
    · rename_i h₂
      rw [if_neg h₂] at h
      cases h
  · rename_i h₁
    rw [if_neg h₁] at h
    split
    · exact (show (0 : Int) ≤ 99999 by omega)
    · rename_i h₂
      rw [if_neg h₂] at h
      cases h

theorem parmMatches_nonneg {i : Nat} {ps : List TemplateParm} {pps : List (List Char)}
    (h : ∀ r ∈ parmMatches T i ps pps, r.1.isMatch = true) :
    ∀ r ∈ parmMatches T i ps pps, 0 ≤ r.2 := by
  induction ps generalizing i pps with
  | nil => intro r hr; cases hr
  | cons p ps ih =>
      cases pps with
      | nil => intro r hr; cases hr
      | cons pp pps =>
          rw [parmMatches] at h ⊢
          intro r hr
          rcases List.mem_cons.1 hr with rfl | hr
          · exact doesParmMatch_nonneg T (h _ List.mem_cons_self)
          · exact ih (fun r hr => h r (List.mem_cons_of_mem _ hr)) r hr

theorem priority_nonneg {c : Partial} (h : Matching T parms c) (col : Nat) :
    0 ≤ priority T parms c col := by
  rw [priority]
  cases hcol : (parmMatches T 1 parms c.partialparms)[col]? with
  | none => exact le_refl _
  | some r => exact parmMatches_nonneg T h.2 r (List.mem_of_getElem? hcol)

/-! ## Cells -/

theorem Matrix.write_ok {m : Matrix} {i : Nat} (h : i < m.size) (v : Int) :
    m.write i v = .ok { m with cell := Function.update m.cell i (some v) } := by
  rw [Matrix.write, if_pos h]

theorem Matrix.read_ok {m : Matrix} {i : Nat} {v : Int} (h : i < m.size)
    (hv : m.cell i = some v) : m.read i = .ok v := by
  rw [Matrix.read, if_pos h, hv]

theorem cell_lt {r n k col : Nat} (hr : r < k) (hcol : col < n) : r * n + col < k * n := by
  have h : (r + 1) * n ≤ k * n := Nat.mul_le_mul_right n hr
  rw [Nat.succ_mul] at h
  omega

theorem cell_inj {r r' n col col' : Nat} (hcol : col < n) (hcol' : col' < n)
    (h : r * n + col = r' * n + col') : r = r' ∧ col = col' := by
  have hr : r = r' := by
    rcases Nat.lt_trichotomy r r' with hlt | heq | hlt
    · have := cell_lt hlt hcol
      omega
    · exact heq
    · have := cell_lt hlt hcol'
      omega
  subst hr
  exact ⟨rfl, by omega⟩

/-- The rows of the matrix are those of the list, with the given entries. -/
def Rows (m : Matrix) (entry : Partial → Nat → Int) (possible : List Partial) : Prop :=
  ∀ r c, possible[r]? = some c → ∀ col < parms.length,
    m.cell (r * parms.length + col) = some (entry c col)

/-! ## The candidates -/

/-- The loop over the parameters of a candidate stays in its row, and when it matches
it has filled it. -/
theorem matchParms_row {row i : Nat} {m : Matrix} {ps : List TemplateParm}
    {pps : List (List Char)} (hi : 0 < i) (hlen : pps.length = ps.length)
    (hroom : row + i - 1 + ps.length ≤ m.size) :
    ∃ m', matchParms T row i m ps pps =
        .ok (m', decide (∀ r ∈ parmMatches T i ps pps, r.1.isMatch = true)) ∧
      m'.size = m.size ∧
      (∀ k, k < row + i - 1 ∨ row + i - 1 + ps.length ≤ k → m'.cell k = m.cell k) ∧
      ((∀ r ∈ parmMatches T i ps pps, r.1.isMatch = true) →
        ∀ k r, (parmMatches T i ps pps)[k]? = some r →
          m'.cell (row + i - 1 + k) = some r.2) := by
  induction ps generalizing i m pps with
  | nil =>
      cases pps with
      | nil =>
          refine ⟨m, ?_, rfl, fun _ _ => rfl, by simp [parmMatches]⟩
          simp [matchParms, parmMatches]
          rfl
      | cons pp pps => cases hlen
  | cons p ps ih =>
      cases pps with
      | nil => cases hlen
      | cons pp pps =>
          have hcell : row + i - 1 < m.size := by
            simp only [List.length_cons] at hroom
            omega
          obtain ⟨result, hresult⟩ : ∃ r, r = doesParmMatch T p.text pp (dollar i) := ⟨_, rfl⟩
          have hwrite := Matrix.write_ok hcell result.2
          rw [parmMatches, ← hresult]
          cases hmatch : result.1.isMatch with
          | false =>
              refine ⟨{ m with cell := Function.update m.cell (row + i - 1) (some result.2) },
                ?_, rfl, fun k hk => ?_, fun hall => ?_⟩
              · simp only [matchParms, ← hresult]
                rw [hwrite]
                show (if result.1.isMatch = true then _ else _) = _
                simp [hmatch]
                rfl
              · refine Function.update_of_ne ?_ _ _
                simp only [List.length_cons] at hk
                omega
              · have hfirst := hall result List.mem_cons_self
                rw [hmatch] at hfirst
                cases hfirst
          | true =>
              have hroom' : row + (i + 1) - 1 + ps.length ≤
                  ({ m with cell := Function.update m.cell (row + i - 1) (some result.2) } :
                    Matrix).size := by
                simp only [List.length_cons] at hroom ⊢
                omega
              obtain ⟨m', hrun, hsize, hout, hin⟩ :=
                ih (Nat.succ_pos i) (show pps.length = ps.length by simpa using hlen) hroom'
              refine ⟨m', ?_, hsize, fun k hk => ?_, fun hall k r hk => ?_⟩
              · simp only [matchParms, ← hresult]
                rw [hwrite]
                show (if result.1.isMatch = true then _ else _) = _
                rw [if_pos hmatch, hrun]
                simp [hmatch]
              · simp only [List.length_cons] at hk
                rw [hout k (by omega)]
                refine Function.update_of_ne ?_ _ _
                omega
              · cases k with
                | zero =>
                    obtain rfl : result = r := by simpa using hk
                    rw [hout _ (by omega)]
                    exact Function.update_self _ _ _
                | succ k =>
                    have hrest := hin (fun r hr => hall r (List.mem_cons_of_mem _ hr)) k r
                      (by simpa using hk)
                    rw [show row + i - 1 + (k + 1) = row + (i + 1) - 1 + k by omega]
                    exact hrest

theorem rankPartials_rows {m : Matrix} {possible rest : List Partial} {max : Nat}
    (hsize : m.size = max * parms.length) (hmax : possible.length + rest.length ≤ max)
    (hrows : Rows parms m (priority T parms) possible) :
    ∃ m', rankPartials T parms m possible rest =
        .ok (m', possible ++ rest.filter fun c => Matching T parms c) ∧
      m'.size = m.size ∧
      Rows parms m' (priority T parms) (possible ++ rest.filter fun c => Matching T parms c) := by
  induction rest generalizing m possible with
  | nil =>
      refine ⟨m, ?_, rfl, ?_⟩
      · simp [rankPartials]
        rfl
      · simpa using hrows
  | cons c rest ih =>
      rw [List.length_cons] at hmax
      by_cases hlen : c.partialparms.length = parms.length
      · have hroom : possible.length * parms.length + 1 - 1 + parms.length ≤ m.size := by
          have h : (possible.length + 1) * parms.length ≤ max * parms.length :=
            Nat.mul_le_mul_right _ (by omega)
          rw [Nat.succ_mul] at h
          omega
        obtain ⟨m₁, hrun, hsize₁, hout, hin⟩ := matchParms_row T (by omega) hlen hroom
        -- The rows before the candidate's are as they were.
        have hrows₁ : Rows parms m₁ (priority T parms) possible := by
          intro r d hd col hcol
          have hr : r < possible.length := (List.getElem?_eq_some_iff.1 hd).1
          have hlt := cell_lt hr hcol
          rw [hout _ (Or.inl (by omega))]
          exact hrows r d hd col hcol
        by_cases hmatch : Matching T parms c
        · have hfull : Rows parms m₁ (priority T parms) (possible ++ [c]) := by
            intro r d hd col hcol
            rcases Nat.lt_or_ge r possible.length with hr | hr
            · rw [List.getElem?_append_left hr] at hd
              exact hrows₁ r d hd col hcol
            · rw [List.getElem?_append_right hr] at hd
              obtain ⟨hr', hd'⟩ := List.getElem?_eq_some_iff.1 hd
              have hr₀ : r = possible.length := by
                simp only [List.length_singleton] at hr'
                omega
              obtain rfl : c = d := by simpa using hd'
              have hcell : col < (parmMatches T 1 parms c.partialparms).length := by
                rw [parmMatches_length T hlen]
                exact hcol
              have hwritten := hin hmatch.2 col _ (List.getElem?_eq_getElem hcell)
              rw [priority, List.getElem?_eq_getElem hcell, hr₀]
              simpa using hwritten
          obtain ⟨m₂, hrun₂, hsize₂, hrows₂⟩ := ih (hsize₁.trans hsize)
            (by simp only [List.length_append, List.length_singleton]; omega) hfull
          refine ⟨m₂, ?_, hsize₂.trans hsize₁, ?_⟩
          · rw [rankPartials, if_pos hlen, hrun, decide_eq_true hmatch.2]
            show rankPartials T parms m₁ (possible ++ [c]) rest = _
            rw [hrun₂, List.filter_cons_of_pos (by simpa using hmatch)]
            simp
          · rw [List.filter_cons_of_pos (by simpa using hmatch)]
            simpa using hrows₂
        · have hnot : ¬ ∀ r ∈ parmMatches T 1 parms c.partialparms, r.1.isMatch = true :=
            fun hall => hmatch ⟨hlen, hall⟩
          obtain ⟨m₂, hrun₂, hsize₂, hrows₂⟩ := ih (hsize₁.trans hsize) (by omega) hrows₁
          refine ⟨m₂, ?_, hsize₂.trans hsize₁, ?_⟩
          · rw [rankPartials, if_pos hlen, hrun, decide_eq_false hnot]
            show rankPartials T parms m₁ possible rest = _
            rw [hrun₂, List.filter_cons_of_neg (by simpa using hmatch)]
          · rw [List.filter_cons_of_neg (by simpa using hmatch)]
            exact hrows₂
      · have hmatch : ¬ Matching T parms c := fun h => hlen h.1
        obtain ⟨m₂, hrun₂, hsize₂, hrows₂⟩ := ih hsize (by omega) hrows
        refine ⟨m₂, ?_, hsize₂, ?_⟩
        · rw [rankPartials, if_neg hlen, hrun₂,
            List.filter_cons_of_neg (by simpa using hmatch)]
        · rw [List.filter_cons_of_neg (by simpa using hmatch)]
          exact hrows₂

/-! ## Flags -/

/-- The first `k` rows of `n` cells hold the given numbers. -/
def Filled (m : Matrix) (n k : Nat) (e : Nat → Nat → Int) : Prop :=
  k * n ≤ m.size ∧ ∀ r < k, ∀ col < n, m.cell (r * n + col) = some (e r col)

/-- What `flagMatrix` makes of the numbers. -/
def flagged (e : Nat → Nat → Int) (k r col : Nat) : Int :=
  if ∀ d < k, e d col ≤ e r col then 1 else 0

variable {m : Matrix} {n k : Nat} {e : Nat → Nat → Int}

theorem Filled.read (h : Filled m n k e) {r col : Nat} (hr : r < k) (hcol : col < n) :
    m.read (r * n + col) = .ok (e r col) := by
  have hlt := cell_lt hr hcol
  exact Matrix.read_ok (lt_of_lt_of_le hlt h.1) (h.2 r hr col hcol)

theorem maxPriority_ok (h : Filled m n k e) {col : Nat} (hcol : col < n) :
    ∃ mx, maxPriority m n k col = .ok mx ∧ (∀ r < k, e r col ≤ mx) ∧
      (mx = -1 ∨ ∃ r < k, e r col = mx) := by
  have hrun := range_foldlM_ok (n := k) (s := (-1 : Int))
    (I := fun turns mx => (∀ r < turns, e r col ≤ mx) ∧ (mx = -1 ∨ ∃ r < turns, e r col = mx))
    (f := fun maxpriority row => do
      let priority ← m.read (col + row * n)
      return if maxpriority < priority then priority else maxpriority)
    ⟨fun r hr => absurd hr (Nat.not_lt_zero r), Or.inl rfl⟩ ?_
  · exact hrun
  · intro i mx hi hI
    refine ⟨if mx < e i col then e i col else mx, ?_, ?_⟩
    · show (m.read (col + i * n)).bind _ = _
      rw [Nat.add_comm, h.read hi hcol]
      rfl
    · by_cases hlt : mx < e i col
      · rw [if_pos hlt]
        refine ⟨fun r hr => ?_, Or.inr ⟨i, by omega, rfl⟩⟩
        rcases Nat.lt_succ_iff_lt_or_eq.1 hr with hr | rfl
        · exact (hI.1 r hr).trans hlt.le
        · exact le_refl _
      · rw [if_neg hlt]
        refine ⟨fun r hr => ?_, hI.2.imp id fun ⟨r, hr, heq⟩ => ⟨r, by omega, heq⟩⟩
        rcases Nat.lt_succ_iff_lt_or_eq.1 hr with hr | rfl
        · exact hI.1 r hr
        · omega

theorem flagColumn_filled (h : Filled m n k e)
    (hnonneg : ∀ r < k, ∀ col < n, 0 ≤ e r col) {col : Nat} (hcol : col < n) :
    ∃ m', flagColumn n k m col = .ok m' ∧
      Filled m' n k fun r c => if c = col then flagged e k r c else e r c := by
  obtain ⟨mx, hmax, hge, hattained⟩ := maxPriority_ok h hcol
  have hflag : ∀ r < k, (if mx ≤ e r col then (1 : Int) else 0) = flagged e k r col := by
    intro r hr
    rw [flagged]
    by_cases hle : mx ≤ e r col
    · rw [if_pos hle, if_pos fun d hd => (hge d hd).trans hle]
    · rw [if_neg hle, if_neg]
      intro hall
      rcases hattained with rfl | ⟨d, hd, rfl⟩
      · have := hnonneg r hr col hcol
        omega
      · exact hle (hall d hd)
  -- The rows before the turn's are flagged, the others are as they were.
  obtain ⟨m', hrun, hfilled⟩ := range_foldlM_ok (n := k) (s := m)
    (I := fun turns m' => Filled m' n k fun r c =>
      if c = col ∧ r < turns then flagged e k r c else e r c)
    (f := fun m row => do
      let priority ← m.read (col + row * n)
      m.write (col + row * n) (if mx ≤ priority then 1 else 0))
    (by simpa using h) (by
      intro i m₁ hi hI
      have hin : i * n + col < m₁.size := lt_of_lt_of_le (cell_lt hi hcol) hI.1
      have hread := hI.read hi hcol
      rw [if_neg (by omega)] at hread
      refine ⟨⟨m₁.size, Function.update m₁.cell (i * n + col) (some (flagged e k i col))⟩,
        ?_, hI.1, ?_⟩
      · show (m₁.read (col + i * n)).bind _ = _
        rw [Nat.add_comm, hread]
        show m₁.write (i * n + col) _ = _
        rw [hflag i hi]
        exact Matrix.write_ok hin _
      · intro r hr c hc
        beta_reduce
        by_cases hsame : r = i ∧ c = col
        · obtain ⟨rfl, rfl⟩ := hsame
          rw [if_pos ⟨rfl, by omega⟩]
          exact Function.update_self _ _ _
        · have hne : r * n + c ≠ i * n + col := fun heq => hsame (cell_inj hc hcol heq)
          show Function.update m₁.cell (i * n + col) _ (r * n + c) = _
          rw [Function.update_of_ne hne, hI.2 r hr c hc]
          beta_reduce
          by_cases hcc : c = col
          · have hri : r ≠ i := fun hri => hsame ⟨hri, hcc⟩
            by_cases hlt : r < i
            · rw [if_pos ⟨hcc, hlt⟩, if_pos ⟨hcc, by omega⟩]
            · rw [if_neg (by omega), if_neg (by omega)]
          · rw [if_neg fun hand => hcc hand.1, if_neg fun hand => hcc hand.1])
  refine ⟨m', ?_, hfilled.1, fun r hr c hc => ?_⟩
  · rw [flagColumn, hmax]
    exact hrun
  · rw [hfilled.2 r hr c hc]
    beta_reduce
    by_cases hcc : c = col
    · rw [if_pos ⟨hcc, hr⟩, if_pos hcc]
    · rw [if_neg fun hand => hcc hand.1, if_neg hcc]

theorem flagMatrix_filled (h : Filled m n k e) (hnonneg : ∀ r < k, ∀ col < n, 0 ≤ e r col) :
    ∃ m', flagMatrix m n k = .ok m' ∧ Filled m' n k (flagged e k) := by
  obtain ⟨m', hrun, hfilled⟩ := range_foldlM_ok (n := n) (s := m)
    (I := fun turns m' => Filled m' n k fun r c =>
      if c < turns then flagged e k r c else e r c)
    (f := flagColumn n k) (by simpa using h) (by
      intro i m₁ hi hI
      have hnonneg₁ : ∀ r < k, ∀ c < n, 0 ≤ if c < i then flagged e k r c else e r c := by
        intro r hr c hc
        split
        · rw [flagged]
          split <;> omega
        · exact hnonneg r hr c hc
      obtain ⟨m₂, hrun, hfilled⟩ := flagColumn_filled hI hnonneg₁ hi
      refine ⟨m₂, hrun, hfilled.1, fun r hr c hc => ?_⟩
      rw [hfilled.2 r hr c hc]
      beta_reduce
      by_cases hci : c = i
      · subst hci
        rw [if_pos rfl, if_pos (Nat.lt_succ_self c)]
        simp [flagged]
      · rw [if_neg hci]
        by_cases hlt : c < i
        · rw [if_pos hlt, if_pos (by omega)]
        · rw [if_neg hlt, if_neg (by omega)])
  refine ⟨m', hrun, hfilled.1, fun r hr c hc => ?_⟩
  rw [hfilled.2 r hr c hc]
  exact congrArg some (if_pos hc)

theorem highestCount_ok (h : Filled m n k (flagged e k)) {r : Nat} (hr : r < k) :
    ∃ count, highestCount m n r = .ok count ∧
      (count = n ↔ ∀ col < n, flagged e k r col = 1) := by
  obtain ⟨count, hrun, -, hcount⟩ := range_foldlM_ok (n := n) (s := (0 : Int))
    (I := fun turns (count : Int) => count ≤ turns ∧
      (count = turns ↔ ∀ col < turns, flagged e k r col = 1))
    (f := fun count col => do return count + (← m.read (r * n + col)))
    ⟨le_refl _, by simp⟩ (by
      intro i count hi hI
      refine ⟨count + flagged e k r i, ?_, ?_⟩
      · show (m.read (r * n + i)).bind _ = _
        rw [h.read hr hi]
        rfl
      · have hflag : flagged e k r i = 0 ∨ flagged e k r i = 1 := by
          rw [flagged]
          split <;> omega
        refine ⟨by push_cast; omega, fun hsum col hcol => ?_, fun hall => ?_⟩
        · push_cast at hsum
          rcases Nat.lt_succ_iff_lt_or_eq.1 hcol with hcol | rfl
          · exact hI.2.1 (by omega) col hcol
          · omega
        · have hlast := hall i (Nat.lt_succ_self i)
          have hfirst := hI.2.2 fun col hcol => hall col (by omega)
          push_cast
          omega)
  exact ⟨count, hrun, hcount⟩

/-! ## The choice -/

/-- The priorities of the possible ones, by their row. -/
def rowPriority (possible : List Partial) (r col : Nat) : Int :=
  (possible[r]?.map fun c => priority T parms c col).getD 0

theorem atLeastAll_iff_flagged {possible : List Partial} {c : Partial} {r : Nat}
    (hr : possible[r]? = some c) :
    AtLeastAll T parms possible c ↔ ∀ col < parms.length,
      flagged (rowPriority T parms possible) possible.length r col = 1 := by
  have hflag : ∀ col, flagged (rowPriority T parms possible) possible.length r col = 1 ↔
      ∀ d ∈ possible, priority T parms d col ≤ priority T parms c col := by
    intro col
    have hall : (∀ d < possible.length,
        rowPriority T parms possible d col ≤ rowPriority T parms possible r col) ↔
        ∀ d ∈ possible, priority T parms d col ≤ priority T parms c col := by
      simp only [rowPriority, hr]
      constructor
      · intro h d hd
        obtain ⟨i, hi, rfl⟩ := List.getElem_of_mem hd
        simpa [List.getElem?_eq_getElem hi] using h i hi
      · intro h i hi
        simpa [List.getElem?_eq_getElem hi] using h _ (List.getElem_mem hi)
    rw [flagged, ← hall]
    split <;> simp_all
  simp only [hflag]
  exact ⟨fun h col hcol d hd => h d hd col hcol, fun h d hd col hcol => h col hcol d hd⟩

theorem chosenFrom_ok {possible : List Partial}
    (h : Filled m parms.length possible.length
      (flagged (rowPriority T parms possible) possible.length))
    {row : Nat} {rest : List Partial} (hrest : possible.drop row = rest) :
    chosenFrom m parms.length row rest =
      .ok (rest.filter fun c => AtLeastAll T parms possible c) := by
  induction rest generalizing row with
  | nil => rfl
  | cons c rest ih =>
      have hrow : row < possible.length := by
        by_contra hge
        rw [List.drop_eq_nil_of_le (by omega)] at hrest
        cases hrest
      have hc : possible[row]? = some c := by
        rw [← Nat.add_zero row, ← List.getElem?_drop, hrest]
        rfl
      have hdrop : possible.drop (row + 1) = rest := by
        rw [← List.drop_drop, hrest]
        rfl
      obtain ⟨count, hrun, hcount⟩ := highestCount_ok h hrow
      have hiff := (atLeastAll_iff_flagged T parms hc).trans hcount.symm
      rw [chosenFrom, hrun]
      show (chosenFrom m parms.length (row + 1) rest).bind _ = _
      rw [ih hdrop]
      by_cases hbest : AtLeastAll T parms possible c
      · rw [List.filter_cons_of_pos (by simpa using hbest)]
        show Except.ok (if count = parms.length then _ else _) = _
        rw [if_pos (hiff.1 hbest)]
      · rw [List.filter_cons_of_neg (by simpa using hbest)]
        show Except.ok (if count = parms.length then _ else _) = _
        rw [if_neg fun heq => hbest (hiff.2 heq)]

/-- The code's choice: the best ones, and all the matching ones when there is none. -/
theorem choosePartials_eq (partials : List Partial) :
    choosePartials T parms partials =
      .ok (let possible := partials.filter fun c => Matching T parms c
        let best := possible.filter fun c => AtLeastAll T parms possible c
        if best = [] then possible else best) := by
  obtain ⟨possible, hpossible⟩ :
    ∃ possible, possible = partials.filter fun c => Matching T parms c := ⟨_, rfl⟩
  have hstart : Rows parms (.malloc (partials.length * parms.length)) (priority T parms) [] := by
    intro r c hc
    cases hc
  obtain ⟨m, hrank, hsize, hrows⟩ := rankPartials_rows T parms rfl
    (show ([] : List Partial).length + partials.length ≤ partials.length by simp) hstart
  rw [List.nil_append, ← hpossible] at hrank hrows
  rw [choosePartials, hrank]
  show (if 1 < possible.length then _ else _) = _
  rw [← hpossible]
  have hmatching : ∀ c ∈ possible, Matching T parms c := by
    intro c hc
    rw [hpossible, List.mem_filter] at hc
    simpa using hc.2
  by_cases hmany : 1 < possible.length
  · have hlen : possible.length ≤ partials.length := by
      rw [hpossible]
      exact List.length_filter_le _ _
    have hfilled : Filled m parms.length possible.length (rowPriority T parms possible) := by
      refine ⟨?_, fun r hr col hcol => ?_⟩
      · rw [hsize]
        exact Nat.mul_le_mul_right _ hlen
      · rw [hrows r _ (List.getElem?_eq_getElem hr) col hcol, rowPriority,
          List.getElem?_eq_getElem hr]
        rfl
    have hnonneg : ∀ r < possible.length, ∀ col < parms.length,
        0 ≤ rowPriority T parms possible r col := by
      intro r hr col _
      rw [rowPriority, List.getElem?_eq_getElem hr]
      exact priority_nonneg T parms (hmatching _ (List.getElem_mem hr)) col
    obtain ⟨m', hflag, hflagged⟩ := flagMatrix_filled hfilled hnonneg
    rw [if_pos hmany, hflag]
    show (chosenFrom m' parms.length 0 possible).bind _ = _
    rw [chosenFrom_ok T parms hflagged (List.drop_zero)]
    rfl
  · rw [if_neg hmany]
    show Except.ok possible = _
    -- With one possible row there is nothing it could be worse than.
    have hall : possible.filter (fun c => AtLeastAll T parms possible c) = possible := by
      refine List.filter_eq_self.2 fun c hc => decide_eq_true fun d hd col _ => ?_
      rcases possible with _ | ⟨a, _ | ⟨b, l⟩⟩
      · cases hc
      · rw [List.mem_singleton.1 hc, List.mem_singleton.1 hd]
      · exact absurd (by simp) hmany
    simp only [hall]
    split <;> simp_all

/-! ## The template that is found -/

theorem best_filter (partials : List Partial) :
    ((partials.filter fun c => Matching T parms c).filter fun c =>
      AtLeastAll T parms (partials.filter fun d => Matching T parms d) c) =
    partials.filter fun c => Best T parms partials c := by
  rw [List.filter_filter]
  refine List.filter_congr fun c hc => ?_
  rw [← Bool.decide_and]
  exact decide_eq_decide.2 ⟨fun h => ⟨hc, h.2, h.1⟩, fun h => ⟨h.2.2, h.2.1⟩⟩

theorem choosePartials_best {partials : List Partial} {c : Partial}
    (hc : Best T parms partials c) :
    choosePartials T parms partials = .ok (partials.filter fun c => Best T parms partials c) := by
  have hsome : (partials.filter fun c => Best T parms partials c) ≠ [] :=
    List.ne_nil_of_mem (List.mem_filter.2 ⟨hc.1, by simpa using hc⟩)
  rw [choosePartials_eq]
  simp only [best_filter]
  rw [if_neg hsome]

theorem parmMatches_congr {T T' : TemplateTable Node} (h : T'.typedefReduce = T.typedefReduce)
    {i : Nat} {ps : List TemplateParm} {pps : List (List Char)} :
    parmMatches T' i ps pps = parmMatches T i ps pps := by
  induction ps generalizing i pps with
  | nil => rfl
  | cons p ps ih =>
      cases pps with
      | nil => rfl
      | cons pp pps => rw [parmMatches, parmMatches, ih, doesParmMatch, doesParmMatch, h]

theorem best_congr {T T' : TemplateTable Node} (h : T'.typedefReduce = T.typedefReduce)
    {l l' : List Partial} (hl : l'.Perm l) {c : Partial} :
    Best T' parms l' c ↔ Best T parms l c := by
  have hmatching : ∀ d, Matching T' parms d ↔ Matching T parms d := by
    intro d
    rw [Matching, Matching, parmMatches_congr h]
  have hpriority : ∀ d col, priority T' parms d col = priority T parms d col := by
    intro d col
    rw [priority, priority, parmMatches_congr h]
  have hmem : ∀ d, d ∈ (l'.filter fun d => Matching T' parms d) ↔
      d ∈ l.filter fun d => Matching T parms d := by
    intro d
    rw [List.mem_filter, List.mem_filter, hl.mem_iff]
    simp only [hmatching]
  rw [Best, Best, hl.mem_iff, hmatching, AtLeastAll, AtLeastAll]
  simp only [hmem, hpriority]

/-- The first of the best ones is found, and the later ones are said to be ignored. -/
theorem templateLocate_of_best {name : List Char} {tparms : List TemplateParm} {templ : Node}
    {first : Partial} {rest : List Partial} (hname : T.clookup name = some templ)
    (hexplicit : explicitSpecialization T (addTemplate name (expandedParms T tparms)) = none)
    (hbest : (T.partials templ).filter (fun c =>
      Best T (comparedParms T tparms) (T.partials templ) c) = first :: rest) :
    templateLocate T name tparms =
      .ok (let n := (T.clookupLocal first.templcsymname).getD templ
        if T.isTemplate n then some ⟨n, rest.map Partial.templcsymname⟩ else none) := by
  have hfirst : Best T (comparedParms T tparms) (T.partials templ) first := by
    have hmem : first ∈ first :: rest := List.mem_cons_self
    rw [← hbest, List.mem_filter] at hmem
    simpa using hmem.2
  have hchoice := choosePartials_best T _ hfirst
  rw [hbest] at hchoice
  simp only [templateLocate, hname, hexplicit]
  rw [hchoice]
  show (if T.isTemplate ((T.clookupLocal first.templcsymname).getD templ) = true
    then _ else _) = _
  split <;> rfl

theorem templateLocate_no_fault (name : List Char) (tparms : List TemplateParm)
    (fault : MatrixFault) : templateLocate T name tparms ≠ .error fault := by
  rw [templateLocate]
  cases T.clookup name with
  | none => exact fun h => by cases h
  | some templ =>
      simp only
      cases explicitSpecialization T (addTemplate name (expandedParms T tparms)) with
      | some n =>
          simp only
          split <;> exact fun h => by cases h
      | none =>
          simp only
          rw [choosePartials_eq]
          show (if _ then _ else _) ≠ _
          split <;> exact fun h => by cases h

/-- The template found when a best one `c` is declared: the first that is best, with
the others ignored. It is the same for every order of the declarations when they are
all declared under one name. -/
theorem templateLocate_best (name : List Char) (tparms : List TemplateParm) :
    (∀ fault, templateLocate T name tparms ≠ .error fault) ∧
    ∀ templ, T.clookup name = some templ →
      ((∃ n, explicitSpecialization T (addTemplate name (expandedParms T tparms)) = some n) →
        ∀ partials', templateLocate { T with partials := partials' } name tparms =
          templateLocate T name tparms) ∧
      (explicitSpecialization T (addTemplate name (expandedParms T tparms)) = none →
        ∀ c, Best T (comparedParms T tparms) (T.partials templ) c →
          (∃ before first behind, T.partials templ = before ++ first :: behind ∧
            (∀ d ∈ before, ¬ Best T (comparedParms T tparms) (T.partials templ) d) ∧
            Best T (comparedParms T tparms) (T.partials templ) first ∧
            templateLocate T name tparms =
              .ok (let n := (T.clookupLocal first.templcsymname).getD templ
                if T.isTemplate n then
                  some ⟨n, (behind.filter fun d =>
                    Best T (comparedParms T tparms) (T.partials templ) d).map
                      Partial.templcsymname⟩
                else none)) ∧
          ((∀ d, Best T (comparedParms T tparms) (T.partials templ) d →
              d.templcsymname = c.templcsymname) →
            ∀ partials', (∀ n, (partials' n).Perm (T.partials n)) →
              (templateLocate { T with partials := partials' } name tparms).map
                  (Option.map Located.node) =
                .ok (let n := (T.clookupLocal c.templcsymname).getD templ
                  if T.isTemplate n then some n else none))) := by
  refine ⟨templateLocate_no_fault T name tparms, fun templ hname => ⟨?_, ?_⟩⟩
  · rintro ⟨n, hn⟩ partials'
    have hn' : explicitSpecialization { T with partials := partials' }
        (addTemplate name (expandedParms { T with partials := partials' } tparms)) = some n := hn
    simp only [templateLocate, hname, hn, hn']
  · intro hexplicit c hc
    obtain ⟨best, hbest⟩ : ∃ best : Partial → Bool,
        best = fun d => decide (Best T (comparedParms T tparms) (T.partials templ) d) := ⟨_, rfl⟩
    have hbest_iff : ∀ d, best d = true ↔
        Best T (comparedParms T tparms) (T.partials templ) d := by simp [hbest]
    refine ⟨?_, fun hunique partials' hperm => ?_⟩
    · obtain ⟨first, rest, hfilter⟩ := List.exists_cons_of_ne_nil
        (List.ne_nil_of_mem (List.mem_filter.2 ⟨hc.1, (hbest_iff c).2 hc⟩))
      obtain ⟨before, behind, hsplit, hbefore, hfirst, rfl⟩ := List.filter_eq_cons_iff.1 hfilter
      refine ⟨before, first, behind, hsplit, fun d hd => ?_, (hbest_iff first).1 hfirst, ?_⟩
      · exact fun h => hbefore d hd ((hbest_iff d).2 h)
      · rw [hbest] at hfilter
        exact templateLocate_of_best T hname hexplicit hfilter
    · have hreduce : ({ T with partials := partials' } : TemplateTable Node).typedefReduce =
          T.typedefReduce := rfl
      have hiff : ∀ d, Best { T with partials := partials' } (comparedParms T tparms)
          (partials' templ) d ↔ Best T (comparedParms T tparms) (T.partials templ) d :=
        fun d => best_congr _ hreduce (hperm templ)
      have hsome : c ∈ (partials' templ).filter fun d =>
          Best { T with partials := partials' } (comparedParms T tparms) (partials' templ) d :=
        List.mem_filter.2 ⟨((hiff c).2 hc).1, decide_eq_true ((hiff c).2 hc)⟩
      obtain ⟨first, rest, hfilter⟩ :=
        List.exists_cons_of_ne_nil (List.ne_nil_of_mem hsome)
      have hmem : first ∈ first :: rest := List.mem_cons_self
      rw [← hfilter, List.mem_filter] at hmem
      have hfirst := (hiff first).1 (by simpa using hmem.2)
      rw [templateLocate_of_best { T with partials := partials' } hname hexplicit hfilter,
        hunique first hfirst]
      simp only [Except.map]
      split <;> rfl

end Swig4Ada.CParse

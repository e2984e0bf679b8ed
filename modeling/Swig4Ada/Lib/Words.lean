import Mathlib

/-!
# Words in a text

A text falls into its words, the longest runs of word characters, and the single
characters between them. Replacing words one after another is the same as replacing
them all at once where no replacement brings in a word that is replaced later.
-/

namespace Swig4Ada.Lib

variable {α : Type} (isWord : α → Bool)

/-- The words and the single characters between them. -/
def words : List α → List (List α)
  | [] => []
  | c :: cs =>
      if isWord c then
        match words cs with
        | [] => [[c]]
        | [] :: ws => [c] :: [] :: ws
        | (d :: w) :: ws => if isWord d then (c :: d :: w) :: ws else [c] :: (d :: w) :: ws
      else [c] :: words cs

/-- All characters are word characters. -/
def AllWord (w : List α) : Prop := ∀ c ∈ w, isWord c = true

/-- A word is not cut between the two texts. -/
def Boundary (u v : List α) : Prop :=
  ∀ c d, u.getLast? = some c → v.head? = some d → isWord c = true → isWord d = false

/-- Each word, and each character between words, replaced by its image. -/
def substitute (σ : List α → List α) (text : List α) : List α := (words isWord text).flatMap σ

section Replace

variable [DecidableEq α]

def replaceWord (name rep text : List α) : List α :=
  substitute isWord (fun w => if w = name then rep else w) text

/-- One replacement after the other. -/
def replaceInTurn (pairs : List (List α × List α)) (text : List α) : List α :=
  pairs.foldl (fun text p => replaceWord isWord p.1 p.2 text) text

/-- The replacement of a word: the one of the first pair with that name. -/
def imageOf : List (List α × List α) → List α → List α
  | [], w => w
  | p :: pairs, w => if w = p.1 then p.2 else imageOf pairs w

/-- All replacements at once. -/
def replaceAtOnce (pairs : List (List α × List α)) (text : List α) : List α :=
  substitute isWord (imageOf pairs) text

/-- No replacement for one of the words has in it a name that a later pair replaces by
something else. -/
def NoCapture : List (List α × List α) → List (List α) → Prop
  | [], _ => True
  | p :: pairs, ws =>
      (p.1 ∈ ws → ∀ q ∈ pairs, q.1 ∈ words isWord p.2 → q.2 = q.1) ∧
        NoCapture pairs (ws.filter (· ≠ p.1))

end Replace

variable {isWord}

/-! ## Words -/

theorem words_head (text : List α) : (words isWord text).head?.bind List.head? = text.head? ∧
    ∀ w ∈ words isWord text, w ≠ [] := by
  induction text with
  | nil => exact ⟨rfl, nofun⟩
  | cons c cs ih =>
      rw [words]
      by_cases hc : isWord c = true
      · rw [if_pos hc]
        obtain ⟨-, hne⟩ := ih
        cases hcs : words isWord cs with
        | nil => exact ⟨rfl, by simp⟩
        | cons w ws =>
            rw [hcs] at hne
            cases w with
            | nil => exact absurd rfl (hne [] List.mem_cons_self)
            | cons d w =>
                have hws : ∀ x ∈ ws, x ≠ [] := fun x hx => hne x (List.mem_cons_of_mem _ hx)
                dsimp only
                split
                · exact ⟨rfl, by simpa using hws⟩
                · exact ⟨rfl, by simpa using hws⟩
      · rw [if_neg hc]
        exact ⟨rfl, by simpa using ih.2⟩

theorem words_cons (c : α) (cs : List α) : words isWord (c :: cs) =
    if (isWord c && cs.head?.any isWord) = true then
      (c :: (words isWord cs).headD []) :: (words isWord cs).tail
    else [c] :: words isWord cs := by
  obtain ⟨hhead, hne⟩ := @words_head _ isWord cs
  rw [words]
  cases isWord c with
  | false => rfl
  | true =>
      cases hcs : words isWord cs with
      | nil =>
          rw [hcs] at hhead
          rw [← hhead]
          rfl
      | cons w ws =>
          rw [hcs] at hhead hne
          cases w with
          | nil => exact absurd rfl (hne [] List.mem_cons_self)
          | cons d w =>
              rw [← hhead]
              rfl

theorem words_single {c : α} : words isWord [c] = [[c]] := by
  rw [words_cons, if_neg (by simp)]
  rfl

theorem words_flatten (text : List α) : (words isWord text).flatten = text := by
  induction text with
  | nil => rfl
  | cons c cs ih =>
      rw [words_cons]
      split
      · rename_i h
        cases hcs : words isWord cs with
        | nil =>
            rw [hcs] at ih
            rw [← ih, Bool.and_eq_true] at h
            exact absurd h.2 Bool.false_ne_true
        | cons w ws =>
            rw [hcs] at ih
            simpa using ih
      · simpa using ih

/-- Words of characters that stand for others. -/
theorem words_map {β : Type} (f : β → α) (text : List β) : words isWord (text.map f) =
    (words (fun x => isWord (f x)) text).map (List.map f) := by
  induction text with
  | nil => rfl
  | cons c cs ih =>
      rw [List.map_cons, words_cons, words_cons, ih, List.head?_map, Option.any_map]
      split
      · cases words (fun x => isWord (f x)) cs with
        | nil => rfl
        | cons w ws => rfl
      · rfl

/-- Texts that meet at a boundary fall into the words of the one and of the other. -/
theorem words_append {u v : List α} (h : Boundary isWord u v) :
    words isWord (u ++ v) = words isWord u ++ words isWord v := by
  induction u with
  | nil => rfl
  | cons c cs ih =>
      cases cs with
      | nil =>
          have hnot : ¬ (isWord c && v.head?.any isWord) = true := by
            rw [Bool.and_eq_true, Option.any_eq_true]
            rintro ⟨hc, d, hd, hword⟩
            exact absurd hword (by rw [h c d rfl hd hc]; exact Bool.false_ne_true)
          rw [List.singleton_append, words_cons, if_neg hnot, words_single]
          rfl
      | cons d ds =>
          have hrest : Boundary isWord (d :: ds) v := fun a b ha hb =>
            h a b (by rwa [List.getLast?_cons_cons]) hb
          have hih := ih hrest
          rw [List.cons_append, words_cons, words_cons, hih]
          obtain ⟨hhead, -⟩ := @words_head _ isWord (d :: ds)
          have hne : words isWord (d :: ds) ≠ [] := by
            intro hnil
            rw [hnil] at hhead
            cases hhead
          obtain ⟨w, ws, hws⟩ := List.exists_cons_of_ne_nil hne
          rw [List.head?_append_of_ne_nil _ (List.cons_ne_nil d ds), hws]
          split <;> rfl

theorem words_word {w : List α} (hne : w ≠ []) (hw : AllWord isWord w) :
    words isWord w = [w] := by
  induction w with
  | nil => exact absurd rfl hne
  | cons c cs ih =>
      rw [words_cons]
      cases cs with
      | nil => rw [if_neg (by simp)]; rfl
      | cons d ds =>
          have hds : AllWord isWord (d :: ds) := fun x hx => hw x (List.mem_cons_of_mem _ hx)
          have hboth : (isWord c && (d :: ds).head?.any isWord) = true := by
            rw [Bool.and_eq_true]
            exact ⟨hw c List.mem_cons_self, hds d List.mem_cons_self⟩
          rw [if_pos hboth, ih (List.cons_ne_nil d ds) hds]
          rfl

/-- A text is a word, or it goes on behind a word and a character that is none. -/
theorem word_induction {P : List α → Prop} (word : ∀ w, AllWord isWord w → P w)
    (next : ∀ w c rest, AllWord isWord w → isWord c = false → P rest → P (w ++ c :: rest))
    (text : List α) : P text := by
  induction hn : text.length using Nat.strong_induction_on generalizing text with
  | _ n ih =>
      have hsplit := List.takeWhile_append_dropWhile (p := isWord) (l := text)
      have hw : AllWord isWord (text.takeWhile isWord) := fun c hc => List.mem_takeWhile_imp hc
      cases hdrop : text.dropWhile isWord with
      | nil =>
          rw [hdrop, List.append_nil] at hsplit
          rw [← hsplit]
          exact word _ hw
      | cons c rest =>
          have hc : isWord c = false := by
            have hhead := List.head_dropWhile_not isWord (l := text) (by rw [hdrop]; simp)
            simpa [hdrop] using hhead
          rw [hdrop] at hsplit
          have hlt : rest.length < n := by
            rw [← hn, ← hsplit, List.length_append, List.length_cons]
            omega
          rw [← hsplit]
          exact next _ c rest hw hc (ih rest.length hlt rest rfl)

theorem words_next {w rest : List α} {c : α} (hc : isWord c = false) :
    words isWord (w ++ c :: rest) = words isWord w ++ [c] :: words isWord rest := by
  have hfirst : Boundary isWord w (c :: rest) := by
    intro a b _ hb _
    obtain rfl : c = b := Option.some.inj hb
    exact hc
  have hsecond : Boundary isWord [c] rest := by
    intro a b ha _ hword
    obtain rfl : c = a := Option.some.inj ha
    rw [hc] at hword
    cases hword
  rw [words_append hfirst, ← List.singleton_append, words_append hsecond, words_single]
  rfl

theorem mem_words {text w : List α} (h : w ∈ words isWord text) :
    w ≠ [] ∧ AllWord isWord w ∨ ∃ c, w = [c] ∧ isWord c = false := by
  induction text using @word_induction _ isWord with
  | word v hv =>
      cases v with
      | nil => cases h
      | cons c cs =>
          rw [words_word (List.cons_ne_nil c cs) hv] at h
          obtain rfl := List.mem_singleton.1 h
          exact Or.inl ⟨List.cons_ne_nil c cs, hv⟩
  | next v c rest hv hc ih =>
      rw [words_next hc, List.mem_append, List.mem_cons] at h
      rcases h with h | rfl | h
      · cases v with
        | nil => cases h
        | cons d ds =>
            rw [words_word (List.cons_ne_nil d ds) hv] at h
            obtain rfl := List.mem_singleton.1 h
            exact Or.inl ⟨List.cons_ne_nil d ds, hv⟩
      · exact Or.inr ⟨c, rfl, hc⟩
      · exact ih h

/-- What is one of the words of a text is its own only word. -/
theorem words_of_mem {text w : List α} (h : w ∈ words isWord text) : words isWord w = [w] := by
  rcases mem_words h with ⟨hne, hw⟩ | ⟨c, rfl, -⟩
  · exact words_word hne hw
  · exact words_single

/-- A word is in a text where it stands between two boundaries. -/
theorem mem_words_iff {text w : List α} (hne : w ≠ []) (hw : AllWord isWord w) :
    w ∈ words isWord text ↔
      ∃ u v, text = u ++ (w ++ v) ∧ Boundary isWord u w ∧ Boundary isWord w v := by
  have hhead : ∀ (u : List α), u ≠ [] → (w ++ u).head? = w.head? :=
    fun u _ => List.head?_append_of_ne_nil w hne
  constructor
  · intro h
    induction text using @word_induction _ isWord with
    | word x hx =>
        cases x with
        | nil => cases h
        | cons c cs =>
            rw [words_word (List.cons_ne_nil c cs) hx] at h
            obtain rfl := List.mem_singleton.1 h
            exact ⟨[], [], by simp, nofun, nofun⟩
    | next x c rest hx hc ih =>
        rw [words_next hc, List.mem_append, List.mem_cons] at h
        rcases h with h | rfl | h
        · cases x with
          | nil => cases h
          | cons d ds =>
              rw [words_word (List.cons_ne_nil d ds) hx] at h
              obtain rfl := List.mem_singleton.1 h
              refine ⟨[], c :: rest, rfl, nofun, fun a b _ hb _ => ?_⟩
              obtain rfl : c = b := Option.some.inj hb
              exact hc
        · rw [hw c List.mem_cons_self] at hc
          cases hc
        · obtain ⟨u, v, rfl, hu, hv⟩ := ih h
          refine ⟨x ++ c :: u, v, by simp, fun a b ha hb hword => ?_, hv⟩
          rw [List.getLast?_append_of_ne_nil _ (List.cons_ne_nil c u)] at ha
          cases u with
          | nil =>
              obtain rfl : c = a := Option.some.inj ha
              rw [hc] at hword
              cases hword
          | cons d ds =>
              rw [List.getLast?_cons_cons] at ha
              exact hu a b ha hb hword
  · rintro ⟨u, v, rfl, hu, hv⟩
    have hu' : Boundary isWord u (w ++ v) := by
      intro a b ha hb
      rw [List.head?_append_of_ne_nil w hne] at hb
      exact hu a b ha hb
    rw [words_append hu', words_append hv, words_word hne hw]
    exact List.mem_append_right _ (List.mem_append_left _ List.mem_cons_self)

/-! ## Substitutions -/

section Substitute

variable {σ : List α → List α}

theorem substitute_next {w rest : List α} {c : α} (hc : isWord c = false) :
    substitute isWord σ (w ++ c :: rest) =
      substitute isWord σ w ++ (σ [c] ++ substitute isWord σ rest) := by
  rw [substitute, words_next hc, List.flatMap_append, List.flatMap_cons]
  rfl

/-- A substitution that keeps what is between the words keeps the words apart. -/
theorem words_substitute (hσ : ∀ c, isWord c = false → σ [c] = [c]) (text : List α) :
    words isWord (substitute isWord σ text) =
      (words isWord text).flatMap fun w => words isWord (σ w) := by
  have hword : ∀ w, AllWord isWord w → words isWord (substitute isWord σ w) =
      (words isWord w).flatMap fun v => words isWord (σ v) := by
    intro w hw
    cases w with
    | nil => rfl
    | cons c cs =>
        rw [substitute, words_word (List.cons_ne_nil c cs) hw]
        simp
  induction text using @word_induction _ isWord with
  | word w hw => exact hword w hw
  | next w c rest hw hc ih =>
      rw [substitute_next hc, hσ c hc, List.singleton_append, words_next hc, hword w hw, ih,
        words_next hc, List.flatMap_append, List.flatMap_cons, hσ c hc, words_single]
      rfl

theorem substitute_substitute {τ : List α → List α} (hσ : ∀ c, isWord c = false → σ [c] = [c])
    (text : List α) : substitute isWord τ (substitute isWord σ text) =
      (words isWord text).flatMap fun w => substitute isWord τ (σ w) := by
  rw [substitute, words_substitute hσ, List.flatMap_assoc]
  rfl

theorem substitute_congr {τ : List α → List α} {text : List α}
    (h : ∀ w ∈ words isWord text, σ w = τ w) :
    substitute isWord σ text = substitute isWord τ text :=
  List.flatMap_congr h

theorem substitute_self {text : List α} (h : ∀ w ∈ words isWord text, σ w = w) :
    substitute isWord σ text = text := by
  rw [substitute, List.flatMap_congr h]
  have hflatten := @words_flatten _ isWord text
  rwa [← List.flatMap_id] at hflatten

end Substitute

/-- Blocks that are each at least as long as others are these when their concatenation is. -/
theorem flatMap_inj {β : Type} {f g : β → List α} {ws : List β}
    (hle : ∀ w ∈ ws, (f w).length ≤ (g w).length) (h : ws.flatMap f = ws.flatMap g) :
    ∀ w ∈ ws, f w = g w := by
  induction ws with
  | nil => exact fun w hw => absurd hw List.not_mem_nil
  | cons w ws ih =>
      have htail : (ws.flatMap f).length ≤ (ws.flatMap g).length := by
        rw [List.length_flatMap, List.length_flatMap]
        exact List.sum_le_sum fun v hv => hle v (List.mem_cons_of_mem w hv)
      have hlength := congrArg List.length h
      have hhead := hle w List.mem_cons_self
      rw [List.flatMap_cons, List.flatMap_cons] at h
      simp only [List.flatMap_cons, List.length_append] at hlength
      obtain ⟨hw, hws⟩ := List.append_inj h (by omega)
      rw [List.forall_mem_cons]
      exact ⟨hw, ih (fun v hv => hle v (List.mem_cons_of_mem w hv)) hws⟩

theorem single_ne_name {name : List α} (hw : AllWord isWord name) {c : α}
    (hc : isWord c = false) : [c] ≠ name := by
  rintro rfl
  rw [hw c List.mem_cons_self] at hc
  cases hc

/-! ## One after the other and all at once -/

section Replace

variable [DecidableEq α] {pairs : List (List α × List α)} {text : List α}

/-- The names are words. -/
def Names (isWord : α → Bool) (pairs : List (List α × List α)) : Prop :=
  ∀ p ∈ pairs, p.1 ≠ [] ∧ AllWord isWord p.1

theorem replaceWord_self {name rep : List α}
    (h : name ∈ words isWord text → rep = name) : replaceWord isWord name rep text = text := by
  refine substitute_self fun w hw => ?_
  split
  · rename_i he
    rw [he] at hw ⊢
    exact h hw
  · rfl

theorem mem_replaceWord {name rep : List α} {c : α}
    (h : c ∈ replaceWord isWord name rep text) : c ∈ text ∨ c ∈ rep := by
  obtain ⟨w, hw, hc⟩ := List.mem_flatMap.1 h
  split at hc
  · exact Or.inr hc
  · left
    rw [← @words_flatten _ isWord text]
    exact List.mem_flatten.2 ⟨w, hw, hc⟩

/-- The text tells whether a word of it was replaced by another one. -/
theorem replaceWord_eq_self {name rep : List α}
    (h : replaceWord isWord name rep text = text) : name ∈ words isWord text → rep = name := by
  have hlength : ∀ ws : List (List α),
      (ws.flatMap fun w => if w = name then rep else w).length + ws.count name * name.length =
        ws.flatten.length + ws.count name * rep.length := by
    intro ws
    induction ws with
    | nil =>
        rw [List.count_nil, Nat.zero_mul, Nat.zero_mul]
        rfl
    | cons w ws ih =>
        rw [List.flatMap_cons, List.flatten_cons, List.length_append, List.length_append]
        by_cases hw : w = name
        · rw [if_pos hw, hw, List.count_cons_self, Nat.succ_mul, Nat.succ_mul]
          omega
        · rw [if_neg hw, List.count_cons_of_ne hw]
          omega
  have hsame : ∀ ws : List (List α), rep.length = name.length →
      (ws.flatMap fun w => if w = name then rep else w) = ws.flatten → name ∈ ws → rep = name := by
    intro ws hlen
    induction ws with
    | nil => exact fun _ hmem => absurd hmem List.not_mem_nil
    | cons w ws ih =>
        intro heq hmem
        rw [List.flatMap_cons, List.flatten_cons] at heq
        by_cases hw : w = name
        · rw [if_pos hw, hw] at heq
          exact (List.append_inj heq hlen).1
        · rw [if_neg hw] at heq
          refine ih (List.append_cancel_left heq) ?_
          exact (List.mem_cons.1 hmem).resolve_left fun hn => hw hn.symm
  intro hmem
  have hwords : ((words isWord text).flatMap fun w => if w = name then rep else w) =
      (words isWord text).flatten := by
    rw [words_flatten]
    exact h
  refine hsame _ ?_ hwords hmem
  have hcount := hlength (words isWord text)
  rw [hwords] at hcount
  exact (Nat.eq_of_mul_eq_mul_left (List.count_pos_iff.2 hmem) (by omega)).symm

theorem replaceWord_append {name rep u v : List α} (h : Boundary isWord u v) :
    replaceWord isWord name rep (u ++ v) =
      replaceWord isWord name rep u ++ replaceWord isWord name rep v := by
  rw [replaceWord, substitute, words_append h, List.flatMap_append]
  rfl

theorem replaceWord_name {name rep : List α} (hne : name ≠ []) (hw : AllWord isWord name) :
    replaceWord isWord name rep name = rep := by
  rw [replaceWord, substitute, words_word hne hw, List.flatMap_singleton, if_pos rfl]

theorem replaceInTurn_words (h : Names isWord pairs) (text : List α) :
    replaceInTurn isWord pairs text =
      (words isWord text).flatMap (replaceInTurn isWord pairs) := by
  induction pairs generalizing text with
  | nil => exact (@substitute_self _ _ (fun w => w) _ fun _ _ => rfl).symm
  | cons p pairs ih =>
      have hih := ih fun q hq => h q (List.mem_cons_of_mem p hq)
      have hname := (h p List.mem_cons_self).2
      have hfix : ∀ c, isWord c = false → (if [c] = p.1 then p.2 else [c]) = [c] :=
        fun c hc => if_neg (single_ne_name hname hc)
      have hone : ∀ t, replaceInTurn isWord (p :: pairs) t =
          substitute isWord (replaceInTurn isWord pairs) (replaceWord isWord p.1 p.2 t) :=
        fun t => hih _
      rw [hone, replaceWord, substitute_substitute hfix]
      refine List.flatMap_congr fun w hw => ?_
      have hword : replaceWord isWord p.1 p.2 w = if w = p.1 then p.2 else w := by
        rw [replaceWord, substitute, words_of_mem hw, List.flatMap_singleton]
      rw [hone, hword]

theorem replaceInTurn_self (h : ∀ p ∈ pairs, p.1 ∈ words isWord text → p.2 = p.1) :
    replaceInTurn isWord pairs text = text := by
  induction pairs with
  | nil => rfl
  | cons p pairs ih =>
      have hone := replaceWord_self (h p List.mem_cons_self)
      rw [replaceInTurn, List.foldl_cons, hone]
      exact ih fun q hq => h q (List.mem_cons_of_mem p hq)

/-- The replacements in turn make of a word what they make of it at once. -/
theorem replaceInTurn_word {w : List α} {ws : List (List α)} (hw : words isWord w = [w])
    (hmem : w ∈ ws) (h : NoCapture isWord pairs ws) :
    replaceInTurn isWord pairs w = imageOf pairs w := by
  induction pairs generalizing ws with
  | nil => rfl
  | cons p pairs ih =>
      obtain ⟨hcapture, hrest⟩ := h
      have hone : replaceWord isWord p.1 p.2 w = if w = p.1 then p.2 else w := by
        rw [replaceWord, substitute, hw, List.flatMap_singleton]
      rw [replaceInTurn, List.foldl_cons, hone, imageOf]
      by_cases he : w = p.1
      · rw [if_pos he, if_pos he]
        exact replaceInTurn_self (hcapture (he ▸ hmem))
      · rw [if_neg he, if_neg he]
        exact ih (List.mem_filter.2 ⟨hmem, by simpa using he⟩) hrest

/-- Without a capture it makes no difference whether the names are replaced one after the
other or all at once. -/
theorem replaceInTurn_eq (hnames : Names isWord pairs)
    (h : NoCapture isWord pairs (words isWord text)) :
    replaceInTurn isWord pairs text = replaceAtOnce isWord pairs text := by
  rw [replaceInTurn_words hnames]
  exact List.flatMap_congr fun w hw => replaceInTurn_word (words_of_mem hw) hw h

theorem imageOf_self {w : List α} (h : ∀ p ∈ pairs, p.1 = w → p.2 = p.1) :
    imageOf pairs w = w := by
  induction pairs with
  | nil => rfl
  | cons p pairs ih =>
      rw [imageOf]
      by_cases he : w = p.1
      · rw [if_pos he, h p List.mem_cons_self he.symm, he]
      · rw [if_neg he]
        exact ih fun q hq => h q (List.mem_cons_of_mem p hq)

/-- A text in which no name is replaced by something else. -/
theorem replaceAtOnce_self (h : ∀ p ∈ pairs, p.1 ∈ words isWord text → p.2 = p.1) :
    replaceAtOnce isWord pairs text = text :=
  substitute_self fun _ hw => imageOf_self fun p hp he => h p hp (he ▸ hw)

/-! ## Where the order shows -/

theorem length_replaceWord (name rep : List α) (text : List α) :
    (name.length ≤ rep.length → text.length ≤ (replaceWord isWord name rep text).length) ∧
      (rep.length ≤ name.length → (replaceWord isWord name rep text).length ≤ text.length) := by
  have hsum : ∀ ws : List (List α),
      (name.length ≤ rep.length → ws.flatten.length ≤
        (ws.flatMap fun w => if w = name then rep else w).length) ∧
      (rep.length ≤ name.length →
        (ws.flatMap fun w => if w = name then rep else w).length ≤ ws.flatten.length) := by
    intro ws
    induction ws with
    | nil => exact ⟨fun _ => Nat.le_refl _, fun _ => Nat.le_refl _⟩
    | cons w ws ih =>
        rw [List.flatMap_cons, List.flatten_cons, List.length_append, List.length_append]
        by_cases hw : w = name
        · rw [if_pos hw, hw]
          exact ⟨fun h => Nat.add_le_add h (ih.1 h), fun h => Nat.add_le_add h (ih.2 h)⟩
        · rw [if_neg hw]
          exact ⟨fun h => Nat.add_le_add_left (ih.1 h) _, fun h => Nat.add_le_add_left (ih.2 h) _⟩
  have htext := hsum (words isWord text)
  rw [words_flatten] at htext
  exact htext

theorem imageOf_of_not_mem {w : List α} (h : w ∉ pairs.map Prod.fst) : imageOf pairs w = w :=
  imageOf_self fun p hp he => absurd (List.mem_map.2 ⟨p, hp, he⟩) h

theorem imageOf_append {q : List α × List α} {w : List α} :
    imageOf (pairs ++ [q]) w =
      if w ∈ pairs.map Prod.fst then imageOf pairs w else if w = q.1 then q.2 else w := by
  induction pairs with
  | nil => rfl
  | cons p pairs ih =>
      rw [List.cons_append, imageOf, imageOf, ih, List.map_cons]
      by_cases hw : w = p.1
      · rw [if_pos hw, if_pos hw, if_pos (List.mem_cons.2 (Or.inl hw))]
      · rw [if_neg hw, if_neg hw]
        simp only [List.mem_cons, hw, false_or]

/-- One more replacement captures nothing where no replacement so far has in it a name that it
replaces by something else. -/
theorem noCapture_append {q : List α × List α} {ws : List (List α)} :
    NoCapture isWord (pairs ++ [q]) ws ↔ NoCapture isWord pairs ws ∧
      ∀ w ∈ ws, w ∈ pairs.map Prod.fst → q.1 ∈ words isWord (imageOf pairs w) → q.2 = q.1 := by
  induction pairs generalizing ws with
  | nil =>
      refine iff_of_true ⟨fun _ r hr => absurd hr List.not_mem_nil, trivial⟩
        ⟨trivial, fun w _ hw => absurd hw List.not_mem_nil⟩
  | cons p pairs ih =>
      have himage : ∀ w, w ≠ p.1 → imageOf (p :: pairs) w = imageOf pairs w :=
        fun w hw => if_neg hw
      have hsame : imageOf (p :: pairs) p.1 = p.2 := if_pos rfl
      rw [List.cons_append, NoCapture, NoCapture, ih]
      constructor
      · rintro ⟨hcapture, hno, hrest⟩
        refine ⟨⟨fun hp r hr => hcapture hp r (List.mem_append_left _ hr), hno⟩, ?_⟩
        intro w hw hname hin
        by_cases he : w = p.1
        · subst he
          rw [hsame] at hin
          exact hcapture hw q (List.mem_append_right _ (List.mem_singleton.2 rfl)) hin
        · rw [himage w he] at hin
          exact hrest w (List.mem_filter.2 ⟨hw, by simpa using he⟩)
            ((List.mem_cons.1 hname).resolve_left he) hin
      · rintro ⟨⟨hcapture, hno⟩, hrest⟩
        refine ⟨fun hp r hr => ?_, hno, fun w hw hname hin => ?_⟩
        · rcases List.mem_append.1 hr with hr | hr
          · exact hcapture hp r hr
          · obtain rfl := List.mem_singleton.1 hr
            intro hin
            exact hrest p.1 hp List.mem_cons_self (hsame.symm ▸ hin)
        · obtain ⟨hw, he⟩ := List.mem_filter.1 hw
          refine hrest w hw (List.mem_cons_of_mem _ hname) ?_
          rw [himage w (by simpa using he)]
          exact hin

/-- The replacements in turn are at each stage those at once just when none captures a word
that another one brought in. -/
theorem replaceInTurn_take_iff (hnames : Names isWord pairs) :
    (∀ k, replaceInTurn isWord (pairs.take k) text = replaceAtOnce isWord (pairs.take k) text) ↔
      NoCapture isWord pairs (words isWord text) := by
  induction pairs using List.reverseRecOn with
  | nil =>
      refine iff_of_true (fun k => ?_) trivial
      rw [List.take_nil]
      exact replaceInTurn_eq hnames trivial
  | append_singleton pairs q ih =>
      have hfirst : Names isWord pairs := fun p hp => hnames p (List.mem_append_left _ hp)
      have ih := ih hfirst
      have htake : ∀ k, k ≤ pairs.length → (pairs ++ [q]).take k = pairs.take k :=
        fun k hk => List.take_append_of_le_length hk
      have hlong : ∀ k, pairs.length ≤ k → pairs.take k = pairs.take pairs.length :=
        fun k hk => by rw [List.take_of_length_le hk, List.take_length]
      have hall : ∀ k, pairs.length < k → (pairs ++ [q]).take k = pairs ++ [q] :=
        fun k hk => List.take_of_length_le (by rw [List.length_append]; exact hk)
      rw [noCapture_append, ← ih]
      have hq : q.1 ≠ [] ∧ AllWord isWord q.1 :=
        hnames q (List.mem_append_right _ (List.mem_singleton.2 rfl))
      -- A word becomes the same in the last turn, unless it was put in before.
      have hblocks : replaceInTurn isWord pairs text = replaceAtOnce isWord pairs text →
          replaceInTurn isWord (pairs ++ [q]) text =
            (words isWord text).flatMap fun w =>
              replaceWord isWord q.1 q.2 (imageOf pairs w) := by
        intro hpairs
        rw [replaceInTurn, List.foldl_append]
        show replaceWord isWord q.1 q.2 (replaceInTurn isWord pairs text) = _
        rw [hpairs]
        refine substitute_substitute (fun c hc => imageOf_self fun p hp he => ?_) text
        exact absurd he.symm (single_ne_name (hfirst p hp).2 hc)
      have hword : ∀ w ∈ words isWord text, w ∉ pairs.map Prod.fst →
          replaceWord isWord q.1 q.2 (imageOf pairs w) = imageOf (pairs ++ [q]) w := by
        intro w hw hname
        rw [imageOf_append, if_neg hname, imageOf_of_not_mem hname, replaceWord, substitute,
          words_of_mem hw, List.flatMap_singleton]
      have hput : ∀ w, w ∈ pairs.map Prod.fst → imageOf (pairs ++ [q]) w = imageOf pairs w :=
        fun w hname => by rw [imageOf_append, if_pos hname]
      constructor
      · intro h
        have hpairs : ∀ k, replaceInTurn isWord (pairs.take k) text =
            replaceAtOnce isWord (pairs.take k) text := by
          intro k
          rcases Nat.le_total k pairs.length with hk | hk
          · rw [← htake k hk]
            exact h k
          · rw [hlong k hk, ← htake _ (Nat.le_refl _)]
            exact h pairs.length
        refine ⟨hpairs, fun w hw hname hin => ?_⟩
        have hturn := hpairs pairs.length
        rw [List.take_length] at hturn
        have hlast := h (pairs.length + 1)
        rw [hall _ (Nat.lt_succ_self _), hblocks hturn] at hlast
        have hsame : replaceWord isWord q.1 q.2 (imageOf pairs w) = imageOf (pairs ++ [q]) w := by
          rcases Nat.le_total q.1.length q.2.length with hle | hle
          · refine (flatMap_inj (fun v hv => ?_) hlast.symm w hw).symm
            by_cases hv' : v ∈ pairs.map Prod.fst
            · rw [hput v hv']
              exact (length_replaceWord _ _ _).1 hle
            · exact Nat.le_of_eq (congrArg List.length (hword v hv hv').symm)
          · refine flatMap_inj (fun v hv => ?_) hlast w hw
            by_cases hv' : v ∈ pairs.map Prod.fst
            · rw [hput v hv']
              exact (length_replaceWord _ _ _).2 hle
            · exact Nat.le_of_eq (congrArg List.length (hword v hv hv'))
        rw [hput w hname] at hsame
        exact replaceWord_eq_self hsame hin
      · rintro ⟨hpairs, hcapture⟩ k
        rcases Nat.lt_or_ge pairs.length k with hk | hk
        · have hturn := hpairs pairs.length
          rw [List.take_length] at hturn
          rw [hall k hk, hblocks hturn]
          refine List.flatMap_congr fun w hw => ?_
          by_cases hname : w ∈ pairs.map Prod.fst
          · rw [hput w hname]
            exact replaceWord_self (hcapture w hw hname)
          · exact hword w hw hname
        · rw [htake k hk]
          exact hpairs k

theorem imageOf_perm {pairs' : List (List α × List α)} (hnodup : (pairs.map Prod.fst).Nodup)
    (hperm : pairs'.Perm pairs) (w : List α) : imageOf pairs' w = imageOf pairs w := by
  have hfind : ∀ {l : List (List α × List α)}, (l.map Prod.fst).Nodup → ∀ p ∈ l,
      imageOf l p.1 = p.2 := by
    intro l hl p hp
    induction l with
    | nil => exact absurd hp List.not_mem_nil
    | cons q l ih =>
        rw [List.map_cons, List.nodup_cons] at hl
        rcases List.mem_cons.1 hp with rfl | hp
        · exact if_pos rfl
        · have hne : p.1 ≠ q.1 := by
            intro he
            exact hl.1 (he ▸ List.mem_map_of_mem hp)
          rw [imageOf, if_neg hne]
          exact ih hl.2 hp
  have hnames : (pairs'.map Prod.fst).Perm (pairs.map Prod.fst) := hperm.map Prod.fst
  by_cases hw : w ∈ pairs.map Prod.fst
  · obtain ⟨p, hp, rfl⟩ := List.mem_map.1 hw
    rw [hfind hnodup p hp, hfind (hnames.nodup_iff.2 hnodup) p (hperm.mem_iff.2 hp)]
  · rw [imageOf_of_not_mem hw, imageOf_of_not_mem fun hin => hw (hnames.mem_iff.1 hin)]

/-- No replacement for a word of the text has in it the name of another one. -/
def NoMention (isWord : α → Bool) (pairs : List (List α × List α)) (ws : List (List α)) : Prop :=
  ∀ p ∈ pairs, p.1 ∈ ws → ∀ q ∈ pairs, q ≠ p → q.1 ∈ words isWord p.2 → q.2 = q.1

theorem noCapture_of_noMention {ws : List (List α)} (hnodup : (pairs.map Prod.fst).Nodup)
    (h : NoMention isWord pairs ws) : NoCapture isWord pairs ws := by
  induction pairs generalizing ws with
  | nil => trivial
  | cons p pairs ih =>
      rw [List.map_cons, List.nodup_cons] at hnodup
      refine ⟨fun hp q hq => h p List.mem_cons_self hp q (List.mem_cons_of_mem p hq) ?_,
        ih hnodup.2 fun r hr hws q hq => ?_⟩
      · rintro rfl
        exact hnodup.1 (List.mem_map_of_mem hq)
      · exact h r (List.mem_cons_of_mem p hr) (List.mem_filter.1 hws).1 q
          (List.mem_cons_of_mem p hq)

/-- The order of the replacements never shows just when no replacement has the name of another
one in it. -/
theorem replaceInTurn_perm_iff (hnames : Names isWord pairs)
    (hnodup : (pairs.map Prod.fst).Nodup) :
    (∀ pairs' : List (List α × List α), pairs'.Perm pairs → ∀ k,
      replaceInTurn isWord (pairs'.take k) text = replaceAtOnce isWord (pairs'.take k) text) ↔
      NoMention isWord pairs (words isWord text) := by
  have hsame : ∀ pairs' : List (List α × List α), pairs'.Perm pairs → Names isWord pairs' :=
    fun pairs' hperm p hp => hnames p (hperm.mem_iff.1 hp)
  constructor
  · intro h p hp hword q hq hne
    -- The order in which the two come first.
    have hperm : (p :: q :: (pairs.erase p).erase q).Perm pairs :=
      ((List.perm_cons_erase ((List.mem_erase_of_ne hne).2 hq)).cons p).symm.trans
        (List.perm_cons_erase hp).symm
    have hno := (replaceInTurn_take_iff (hsame _ hperm)).1 (h _ hperm)
    exact hno.1 hword q List.mem_cons_self
  · intro h pairs' hperm
    refine (replaceInTurn_take_iff (hsame pairs' hperm)).2 (noCapture_of_noMention ?_ ?_)
    · exact (hperm.map Prod.fst).nodup_iff.2 hnodup
    · exact fun p hp hword q hq => h p (hperm.mem_iff.1 hp) hword q (hperm.mem_iff.1 hq)

end Replace

end Swig4Ada.Lib

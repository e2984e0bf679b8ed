import Swig4Ada.Proofs.TypeParts
import Swig4Ada.Swig.TypeStr

/-!
# Dimensions of an array

Where no dimension that is gone past has a dot in it, the first dot ends the element, and the
three functions find the element that splitting finds. A dimension that is a template is not
given as it stands in the type but as C text.
-/

namespace Swig4Ada.Swig

open Swig4Ada.Lib Swig4Ada.Ada

/-- A type: the dimensions of its leading array elements, and the rest. -/
structure ArrayType where
  dims : List { l : List Char // Balanced '(' ')' l }
  rest : List Char
  noArray : swigTypeIsarray rest = false
  noDot : rest.head? ≠ some '.'

def arrayElement (dim : List Char) : List Char := ['a', '('] ++ dim ++ [')', '.']

namespace ArrayType

def text (t : ArrayType) : List Char := t.dims.flatMap (fun d => arrayElement d.1) ++ t.rest

/-- The type with another `n`-th dimension. -/
def withDim (t : ArrayType) (n : Nat) (dim : List Char) : List Char :=
  ((t.dims.map Subtype.val).set n dim).flatMap arrayElement ++ t.rest

/-- None of the first `n` dimensions has a dot in it. -/
def DotFree (t : ArrayType) (n : Nat) : Prop := ∀ d ∈ t.dims.take n, '.' ∉ d.1

end ArrayType

variable {dim rest c : List Char}

theorem isarray_element (dim rest : List Char) :
    swigTypeIsarray (arrayElement dim ++ rest) = true := rfl

theorem afterDot_append (h : '.' ∉ dim) (rest : List Char) :
    afterDot (dim ++ rest) = afterDot rest := by
  induction dim with
  | nil => rfl
  | cons x dim ih =>
      rw [List.mem_cons, not_or] at h
      rw [List.cons_append, afterDot, if_neg (Ne.symm h.1), ih h.2]

/-- Without a dot in the dimension, the first dot is the one behind the element. -/
theorem afterDot_element (h : '.' ∉ dim) (rest : List Char) :
    afterDot (arrayElement dim ++ rest) = some rest := by
  have hbehind : afterDot (dim ++ ')' :: '.' :: rest) = some rest := by
    rw [afterDot_append h]
    rfl
  have hwhole : arrayElement dim ++ rest = 'a' :: '(' :: (dim ++ ')' :: '.' :: rest) := by
    simp [arrayElement]
  rw [hwhole, afterDot, if_neg (by decide), afterDot, if_neg (by decide), hbehind]

theorem parm_element (h : Balanced '(' ')' dim) (rest : List Char) :
    swigTypeParm (arrayElement dim ++ rest) = some dim := by
  have hwhole : arrayElement dim ++ rest = ['a'] ++ '(' :: (dim ++ ')' :: '.' :: rest) := by
    simp [arrayElement]
  rw [hwhole, swigTypeParm_open (by simp) h]

theorem delEnds_element (h : Balanced '(' ')' dim) (rest : List Char) :
    DelEnds (arrayElement dim ++ rest) rest := by
  have hwhole : arrayElement dim ++ rest = ['a'] ++ '(' :: (dim ++ ')' :: '.' :: rest) := by
    simp [arrayElement]
  rw [hwhole]
  exact DelEnds.plain (by simp [isPlain]) (DelEnds.parens h (DelEnds.dot rest))

/-! ## The elements that are split -/

/-- What begins no array is split into elements the first of which is none. -/
theorem takeWhile_split_rest (fuel : Nat) (h : swigTypeIsarray rest = false) :
    (swigTypeSplit fuel rest).takeWhile swigTypeIsarray = [] := by
  have htake : ∀ k, swigTypeIsarray (rest.take k) = false := by
    intro k
    by_contra hk
    rw [Bool.not_eq_false, swigTypeIsarray, List.isPrefixOf_iff_prefix] at hk
    rw [swigTypeIsarray, List.isPrefixOf_iff_prefix.2 (hk.trans (List.take_prefix k rest))] at h
    cases h
  cases fuel with
  | zero => rfl
  | succ fuel =>
      cases rest with
      | nil => rfl
      | cons x c => rw [swigTypeSplit, List.takeWhile_cons_of_neg (by rw [htake]; decide)]

namespace ArrayType

variable (t : ArrayType)

theorem text_cons (d : { l : List Char // Balanced '(' ')' l })
    (ds : List { l : List Char // Balanced '(' ')' l }) (rest : List Char)
    (hno : swigTypeIsarray rest = false) (hdot : rest.head? ≠ some '.') :
    (⟨d :: ds, rest, hno, hdot⟩ : ArrayType).text =
      arrayElement d.1 ++ (⟨ds, rest, hno, hdot⟩ : ArrayType).text := by
  rw [text, text, List.flatMap_cons, List.append_assoc]

theorem text_head? : t.text.head? ≠ some '.' := by
  obtain ⟨ds, rest, hno, hdot⟩ := t
  cases ds with
  | nil => exact hdot
  | cons d ds =>
      rw [text_cons]
      exact fun h => absurd (Option.some.inj h) (by decide)

theorem split_leading {fuel : Nat} (hfuel : t.text.length ≤ fuel) :
    (swigTypeSplit fuel t.text).takeWhile swigTypeIsarray =
      t.dims.map fun d => arrayElement d.1 := by
  obtain ⟨ds, rest, hno, hdot⟩ := t
  induction ds generalizing fuel with
  | nil => exact takeWhile_split_rest fuel hno
  | cons d ds ih =>
      rw [text_cons] at hfuel ⊢
      rw [List.length_append] at hfuel
      have hpos : 0 < (arrayElement d.1).length := Nat.succ_pos _
      obtain ⟨fuel, rfl⟩ : ∃ f, fuel = f + 1 := ⟨fuel - 1, by omega⟩
      have hne : arrayElement d.1 ≠ [] := List.cons_ne_nil _ _
      rw [swigTypeSplit_element _ hne (text_head? _) (delEnds_element d.2 _), List.takeWhile_cons_of_pos rfl, ih (by omega)]
      rfl

/-! ## The elements that are looked for -/

theorem arrayNdimLoop_text {fuel : Nat} (hfuel : t.dims.length < fuel)
    (h : ∀ d ∈ t.dims, '.' ∉ d.1) : arrayNdimLoop fuel t.text = t.dims.length := by
  obtain ⟨ds, rest, hno, hdot⟩ := t
  induction ds generalizing fuel with
  | nil =>
      obtain ⟨fuel, rfl⟩ : ∃ f, fuel = f + 1 := ⟨fuel - 1, by omega⟩
      show (if swigTypeIsarray rest = true then _ else 0) = 0
      rw [if_neg (by rw [hno]; exact Bool.false_ne_true)]
  | cons d ds ih =>
      obtain ⟨fuel, rfl⟩ : ∃ f, fuel = f + 1 := ⟨fuel - 1, by omega⟩
      rw [text_cons, arrayNdimLoop, if_pos (isarray_element _ _),
        afterDot_element (h d List.mem_cons_self)]
      exact congrArg (· + 1) (ih (Nat.lt_of_succ_lt_succ hfuel) fun e he =>
        h e (List.mem_cons_of_mem _ he))

theorem length_dims_le : t.dims.length ≤ t.text.length := by
  have hmap : ∀ ds : List { l : List Char // Balanced '(' ')' l },
      ds.length ≤ (ds.flatMap fun d => arrayElement d.1).length := by
    intro ds
    induction ds with
    | nil => exact Nat.le_refl 0
    | cons d ds ih =>
        have hpos : 0 < (arrayElement d.1).length := Nat.succ_pos _
        rw [List.length_cons, List.flatMap_cons, List.length_append]
        omega
  rw [text, List.length_append]
  exact Nat.le_add_right_of_le (hmap t.dims)

/-- The text from the `n`-th dimension on. -/
def dropDims (t : ArrayType) (n : Nat) : ArrayType := { t with dims := t.dims.drop n }

theorem arrayStep_text {n : Nat} (hn : n ≤ t.dims.length) (h : t.DotFree n) :
    arrayStep n t.text = (0, some (t.dropDims n).text) := by
  obtain ⟨ds, rest, hno, hdot⟩ := t
  induction n generalizing ds with
  | zero => rfl
  | succ n ih =>
      cases ds with
      | nil => cases hn
      | cons d ds =>
          rw [text_cons, arrayStep, if_pos (isarray_element _ _),
            afterDot_element (h d (by rw [List.take_succ_cons]; exact List.mem_cons_self))]
          exact ih ds (Nat.le_of_succ_le_succ hn) fun e he =>
            h e (by rw [List.take_succ_cons]; exact List.mem_cons_of_mem _ he)

theorem dropDims_text {n : Nat} (hn : n < t.dims.length) :
    (t.dropDims n).text = arrayElement t.dims[n].1 ++ (t.dropDims (n + 1)).text := by
  obtain ⟨ds, rest, hno, hdot⟩ := t
  have hdrop : (⟨ds, rest, hno, hdot⟩ : ArrayType).dropDims n =
      ⟨ds[n] :: ds.drop (n + 1), rest, hno, hdot⟩ := by
    rw [dropDims]
    congr 1
    exact List.drop_eq_getElem_cons hn
  rw [hdrop, text_cons]
  rfl

theorem getdim_text {n : Nat} (hn : n < t.dims.length) (h : t.DotFree n) :
    swigTypeArrayGetdim t.text n =
      some (some (if swigTypeIstemplate t.dims[n].1 then swigTypeNamestr t.dims[n].1
        else t.dims[n].1)) := by
  rw [swigTypeArrayGetdim, t.arrayStep_text (Nat.le_of_lt hn) h, t.dropDims_text hn]
  show (swigTypeParm _).map _ = _
  rw [parm_element t.dims[n].2]
  rfl

theorem text_take (n : Nat) :
    t.text = (t.dims.take n).flatMap (fun d => arrayElement d.1) ++ (t.dropDims n).text := by
  rw [text, text, dropDims, ← List.append_assoc, ← List.flatMap_append, List.take_append_drop]

theorem setdim_text {n : Nat} (hn : n < t.dims.length) (h : t.DotFree (n + 1))
    (dim : List Char) : swigTypeArraySetdim t.text n dim = some (t.withDim n dim) := by
  have hfree : t.DotFree n := fun d hd =>
    h d (List.mem_of_mem_take (by rw [List.take_take, Nat.min_eq_left (Nat.le_succ n)]; exact hd))
  have harray : swigTypeIsarray t.text = true := by
    have hzero := t.dropDims_text (Nat.lt_of_le_of_lt (Nat.zero_le n) hn)
    have hself : t.dropDims 0 = t := rfl
    rw [hself] at hzero
    rw [hzero]
    exact isarray_element _ _
  have hdot : '.' ∉ t.dims[n].1 :=
    h _ (List.mem_take_iff_getElem.2 ⟨n, by omega, rfl⟩)
  have hfront : t.text.take (t.text.length - (t.dropDims n).text.length) =
      (t.dims.take n).flatMap fun d => arrayElement d.1 := by
    have hlen := congrArg List.length (t.text_take n)
    rw [List.length_append] at hlen
    rw [hlen, Nat.add_sub_cancel, t.text_take n, List.take_left]
  have hset : (t.dims.map Subtype.val).set n dim =
      (t.dims.take n).map Subtype.val ++ dim :: (t.dims.drop (n + 1)).map Subtype.val := by
    rw [List.set_eq_take_append_cons_drop, if_pos (by simpa using hn), List.map_take, List.map_drop]
  rw [swigTypeArraySetdim, if_pos harray, t.arrayStep_text (Nat.le_of_lt hn) hfree]
  show (afterDot _).map _ = _
  rw [hfront, t.dropDims_text hn, afterDot_element hdot, withDim, hset, List.flatMap_append,
    List.flatMap_cons, List.flatMap_map, List.flatMap_map]
  simp [arrayElement, text, dropDims]

end ArrayType

/-- Where no dot is in the dimensions that are gone past, the number of dimensions is that of
the leading array elements, and each can be read and set. A dimension that is a template is
read as C text. -/
theorem arrayType_dims (t : ArrayType) :
    (swigTypeSplit t.text.length t.text).takeWhile swigTypeIsarray =
        t.dims.map (fun d => arrayElement d.1) ∧
      (t.DotFree t.dims.length → swigTypeArrayNdim t.text = t.dims.length) ∧
      ∀ n (hn : n < t.dims.length),
        (t.DotFree n → swigTypeArrayGetdim t.text n =
          some (some (if swigTypeIstemplate t.dims[n].1 then swigTypeNamestr t.dims[n].1
            else t.dims[n].1))) ∧
        (t.DotFree (n + 1) → ∀ dim, swigTypeArraySetdim t.text n dim = some (t.withDim n dim)) := by
  refine ⟨t.split_leading (Nat.le_refl _), fun h => ?_,
    fun n hn => ⟨t.getdim_text hn, fun h dim => t.setdim_text hn h dim⟩⟩
  refine t.arrayNdimLoop_text (Nat.lt_succ_of_le t.length_dims_le) fun d hd => h d ?_
  rw [List.take_length]
  exact hd

/-- `a(2).a(Foo<(p.int)>::n).int`. -/
def templateArray : ArrayType where
  dims := [⟨['2'], by decide⟩, ⟨"Foo<(p.int)>::n".toList, by decide⟩]
  rest := ['i', 'n', 't']
  noArray := rfl
  noDot := by decide

theorem templateArray_dims :
    swigTypeArrayGetdim templateArray.text 1 = some (some "Foo< int * >::n".toList) ∧
      swigTypeArraySetdim templateArray.text 0 ['7'] = some "a(7).a(Foo<(p.int)>::n).int".toList := by
  have h := (arrayType_dims templateArray).2.2
  have hfree : templateArray.DotFree 1 := by
    intro d hd
    obtain rfl := List.mem_singleton.1 hd
    decide
  refine ⟨((h 1 (by decide)).1 hfree).trans (by decide),
    ((h 0 (by decide)).2 hfree ['7']).trans (by decide)⟩

/-- The dimension `Foo<(int)>::n` is not given as it stands in the type; and the program
crashes where the next dimension behind a dimension with a dot is asked for. -/
theorem templateDim_rewritten :
    swigTypeSplit 22 "a(Foo<(int)>::n).int".toList = ["a(Foo<(int)>::n).".toList, "int".toList] ∧
      swigTypeArrayGetdim "a(Foo<(int)>::n).int".toList 0 = some (some "Foo< int >::n".toList) ∧
      swigTypeArrayGetdim "a(Foo<(int)>::n).int".toList 0 ≠ some (some "Foo<(int)>::n".toList) ∧
      swigTypeSplit 15 "a(x.y).a(3).int".toList =
        ["a(x.y).".toList, "a(3).".toList, "int".toList] ∧
      swigTypeArrayGetdim "a(x.y).a(3).int".toList 1 = none := by
  refine ⟨by decide, by decide, by decide, by decide, by decide⟩

end Swig4Ada.Swig

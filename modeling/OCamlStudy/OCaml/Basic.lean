import Mathlib.Data.List.AList
import Mathlib.Tactic

/-! # Values of the OCaml runtime

Strings are byte sequences, `int`, `int32` and `int64` are integers wrapped to
their width, and an exception is a value that ends the computation. A hash table
that is only changed by `replace` and `remove` is an association list with
distinct keys.
-/

namespace OCamlStudy.OCaml

/-- A string, or the contents of a buffer. -/
abbrev Bytes := List UInt8

def bytes (s : String) : Bytes := s.toList.map fun c => c.toNat.toUInt8

/-- `Sys.max_string_length` of a 64-bit runtime. -/
def maxStringLength : ℕ := 2 ^ 57 - 9

/-- Every string of the runtime respects `Sys.max_string_length`. -/
def IsString (s : Bytes) : Prop := s.length ≤ maxStringLength

theorem IsString.trans' {s t : Bytes} (hs : IsString s) (h : t.length ≤ s.length) : IsString t :=
  le_trans h hs

/-- The exceptions the modelled code can raise. -/
inductive Exn where
  | invalidArgument (fn : String)
  | failure (msg : String)
  deriving DecidableEq, Repr

/-- A computation that returns or raises. -/
abbrev Raises (α : Type) := Except Exn α

@[simp]
theorem Raises.ok_bind {α β : Type} (a : α) (f : α → Raises β) :
    ((.ok a : Raises α) >>= f) = f a := rfl

theorem Raises.bind_ok {α β : Type} {x : Raises α} {f : α → Raises β} {b : β}
    (h : (x >>= f) = .ok b) : ∃ a, x = .ok a ∧ f a = .ok b := by
  cases x with
  | error exn => cases h
  | ok a => exact ⟨a, rfl, h⟩

theorem Raises.map_ok {α β : Type} {x : Raises α} {f : α → β} {b : β} (h : f <$> x = .ok b) :
    ∃ a, x = .ok a ∧ f a = b := by
  cases x with
  | error exn => cases h
  | ok a => exact ⟨a, rfl, Except.ok.inj h⟩

/-- The computation returns a value with the property or raises `Failure`. -/
def Raises.Ensures {α : Type} (x : Raises α) (P : α → Prop) : Prop :=
  match x with
  | .ok a => P a
  | .error exn => ∃ msg, exn = .failure msg

section Ensures

variable {α β : Type} {x : Raises α} {P Q : α → Prop}

theorem Raises.ensures_ok {a : α} (h : P a) : Raises.Ensures (.ok a) P := h

theorem Raises.ensures_failure (msg : String) : Raises.Ensures (.error (.failure msg)) P :=
  ⟨msg, rfl⟩

theorem Raises.Ensures.bind {f : α → Raises β} {R : β → Prop} (hx : x.Ensures P)
    (hf : ∀ a, P a → (f a).Ensures R) : (x >>= f).Ensures R := by
  cases x with
  | error exn => exact hx
  | ok a => exact hf a hx

theorem Raises.Ensures.mono (hx : x.Ensures P) (h : ∀ a, P a → Q a) : x.Ensures Q := by
  cases x with
  | error exn => exact hx
  | ok a => exact h a hx

theorem Raises.Ensures.of_ok {a : α} (hx : x.Ensures P) (h : x = .ok a) : P a := by
  subst h
  exact hx

theorem Raises.Ensures.failure (hx : x.Ensures P) (h : ∀ a, ¬ P a) :
    ∃ msg, x = .error (.failure msg) := by
  cases x with
  | error exn =>
    obtain ⟨msg, rfl⟩ := hx
    exact ⟨msg, rfl⟩
  | ok a => exact absurd hx (h a)

end Ensures

/-- Truncation to the 63-bit `int`. -/
def wrap63 (n : ℤ) : ℤ := (n + 2 ^ 62) % 2 ^ 63 - 2 ^ 62

def wrap32 (n : ℤ) : ℤ := (n + 2 ^ 31) % 2 ^ 32 - 2 ^ 31

def wrap64 (n : ℤ) : ℤ := (n + 2 ^ 63) % 2 ^ 64 - 2 ^ 63

theorem wrap63_eq {n : ℤ} (h : -2 ^ 62 ≤ n) (h' : n < 2 ^ 62) : wrap63 n = n := by
  unfold wrap63; omega

theorem wrap32_eq {n : ℤ} (h : -2 ^ 31 ≤ n) (h' : n < 2 ^ 31) : wrap32 n = n := by
  unfold wrap32; omega

theorem wrap64_eq {n : ℤ} (h : -2 ^ 63 ≤ n) (h' : n < 2 ^ 63) : wrap64 n = n := by
  unfold wrap64; omega

/-- `String.sub s ofs len`. -/
def stringSub (s : Bytes) (ofs len : ℤ) : Raises Bytes :=
  if ofs < 0 ∨ len < 0 ∨ ofs > s.length - len then
    .error (.invalidArgument "String.sub / Bytes.sub")
  else .ok ((s.drop ofs.toNat).take len.toNat)

def stringIndexOpt (s : Bytes) (c : UInt8) : Option ℕ := s.findIdx? (· == c)

theorem stringSub_middle {p s t : Bytes} {ofs len : ℤ} (ho : ofs = p.length) (hl : len = s.length) :
    stringSub (p ++ (s ++ t)) ofs len = .ok s := by
  subst ho hl
  rw [stringSub, if_neg (by simp only [List.length_append]; omega)]
  simp

theorem stringSub_suffix {p t : Bytes} {ofs len : ℤ} (ho : ofs = p.length)
    (hl : len = (p ++ t).length - ofs) : stringSub (p ++ t) ofs len = .ok t := by
  have h := stringSub_middle (p := p) (s := t) (t := []) ho rfl
  rw [List.length_append] at hl
  rwa [List.append_nil, show (t.length : ℤ) = len by omega] at h

theorem stringIndexOpt_append {s t : Bytes} {c : UInt8} {i : ℕ}
    (h : stringIndexOpt s c = some i) : stringIndexOpt (s ++ t) c = some i := by
  rw [stringIndexOpt] at h ⊢
  rw [List.findIdx?_append, h, Option.some_or]

theorem stringIndexOpt_lt {s : Bytes} {c : UInt8} {i : ℕ}
    (h : stringIndexOpt s c = some i) : i < s.length :=
  (List.findIdx?_eq_some_iff_getElem.mp h).1

theorem stringIndexOpt_eq_none {s : Bytes} {c : UInt8} :
    stringIndexOpt s c = none ↔ c ∉ s := by
  rw [stringIndexOpt, List.findIdx?_eq_none_iff]
  simp only [beq_eq_false_iff_ne, ne_eq]
  exact ⟨fun h hc => h c hc rfl, fun h x hx he => h (he ▸ hx)⟩

theorem stringIndexOpt_append_cons {s t : Bytes} {c : UInt8} (h : c ∉ s) :
    stringIndexOpt (s ++ c :: t) c = some s.length := by
  rw [stringIndexOpt, List.findIdx?_append]
  have hn : s.findIdx? (· == c) = none := stringIndexOpt_eq_none.mpr h
  rw [hn]
  simp [List.findIdx?_cons]

def uppercaseByte (c : UInt8) : UInt8 := if 97 ≤ c ∧ c ≤ 122 then c - 32 else c

def lowercaseByte (c : UInt8) : UInt8 := if 65 ≤ c ∧ c ≤ 90 then c + 32 else c

def uppercaseAscii (s : Bytes) : Bytes := s.map uppercaseByte

def lowercaseAscii (s : Bytes) : Bytes := s.map lowercaseByte

/-- A hash table changed by `replace`, `remove` and `clear` only. -/
abbrev Hashtbl (κ ν : Type) := AList fun _ : κ => ν

theorem getElem?_concat_eq_some {α : Type} {l : List α} {a b : α} {i : ℕ}
    (h : (l ++ [a])[i]? = some b) : l[i]? = some b ∨ (i = l.length ∧ b = a) := by
  rw [List.getElem?_append] at h
  split_ifs at h with hlt
  · exact .inl h
  · rw [List.getElem?_singleton] at h
    split_ifs at h with hi
    exact .inr ⟨by omega, (Option.some.inj h).symm⟩

theorem getElem?_set_eq_some {α : Type} {l : List α} {a b : α} {i j : ℕ}
    (h : (l.set i a)[j]? = some b) : (j = i ∧ b = a) ∨ l[j]? = some b := by
  rw [List.getElem?_set] at h
  split_ifs at h with hi hlt
  · exact .inl ⟨hi.symm, (Option.some.inj h).symm⟩
  · exact .inr h

end OCamlStudy.OCaml

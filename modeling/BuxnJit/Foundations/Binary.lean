import Mathlib.Data.List.TakeWhile
import Mathlib.Data.BitVec

/-!
# Binary formats

Words in little-endian order, and parsers of byte strings, which return what they read and the bytes
that are left. Each parser comes with the equation that says what it makes of the bytes it is meant
for, followed by any others (`number_bytes`, `cstring_append`, `many_append`, `untilEof_flatMap`). A
parser is sound for an encoding if it accepts nothing else; so is then the loop that reads values up
to the end (`untilEof_sound`).
-/

namespace Foundations

namespace Binary

abbrev Bytes := List (BitVec 8)

/-- The lowest `n` bytes of a word. -/
def bytes {w : ℕ} (n : ℕ) (x : BitVec w) : Bytes :=
  (List.range n).map fun i => (x >>> (8 * i)).setWidth 8

def word (w : ℕ) (bs : Bytes) : BitVec w := bs.foldr (fun b x => x <<< 8 ||| b.setWidth w) 0#w

@[simp] theorem bytes_length {w : ℕ} (n : ℕ) (x : BitVec w) : (bytes n x).length = n := by
  simp [bytes]

theorem getLsbD_word {w : ℕ} (bs : Bytes) {j : ℕ} (hj : j < w) :
    (word w bs).getLsbD j = (bs.getD (j / 8) 0).getLsbD (j % 8) := by
  induction bs generalizing j with
  | nil => simp [word]
  | cons b bs ih =>
    rw [word, List.foldr_cons, ← word, BitVec.getLsbD_or, BitVec.getLsbD_shiftLeft,
      BitVec.getLsbD_setWidth]
    by_cases hlow : j < 8
    · simp [hj, hlow, Nat.div_eq_of_lt hlow, Nat.mod_eq_of_lt hlow]
    · have hdiv : j / 8 = (j - 8) / 8 + 1 := by omega
      have hmod : j % 8 = (j - 8) % 8 := by omega
      have hbit : b.getLsbD j = false := BitVec.getLsbD_of_ge _ _ (by omega)
      rw [ih (by omega), hdiv, hmod]
      simp [hj, hlow, hbit]

/-- **A word is read back** from its bytes. -/
theorem word_bytes {w n : ℕ} (hw : w ≤ 8 * n) (x : BitVec w) : word w (bytes n x) = x := by
  apply BitVec.eq_of_getLsbD_eq
  intro j hj
  have hdiv : j / 8 < n := by omega
  rw [getLsbD_word _ hj, bytes, List.getD_eq_getElem?_getD, List.getElem?_map,
    List.getElem?_range hdiv]
  have hsum : 8 * (j / 8) + j % 8 = j := by omega
  have hlow : j % 8 < 8 := by omega
  simp [hsum, hlow]

theorem getLsbD_bytes {w n : ℕ} (x : BitVec w) {i j : ℕ} (hi : i < n) (hj : j < 8) :
    ((bytes n x).getD i 0).getLsbD j = x.getLsbD (8 * i + j) := by
  simp [bytes, List.getElem?_range hi, hj]

/-- So are the bytes of a word. -/
theorem bytes_word {n : ℕ} {bs : Bytes} (hbs : bs.length = n) : bytes n (word (8 * n) bs) = bs := by
  apply List.ext_getElem (by rw [bytes_length, hbs])
  intro i hi hi'
  apply BitVec.eq_of_getLsbD_eq
  intro j hj
  have hin : i < n := hbs ▸ hi'
  have hbit := getLsbD_bytes (word (8 * n) bs) hin hj
  rw [getLsbD_word bs (by omega)] at hbit
  have hdiv : (8 * i + j) / 8 = i := by omega
  have hmod : (8 * i + j) % 8 = j := by omega
  rw [hdiv, hmod] at hbit
  simpa [List.getD_eq_getElem?_getD, hi, hi', hin] using hbit

/-! ## Parsers -/

abbrev Parser (α : Type) := Bytes → Option (α × Bytes)

/-- A word of `n` bytes. -/
def number (n w : ℕ) : Parser (BitVec w) := fun bs =>
  if n ≤ bs.length then some (word w (bs.take n), bs.drop n) else none

/-- So many bytes. -/
def slice (n : ℕ) : Parser Bytes := fun bs =>
  if n ≤ bs.length then some (bs.take n, bs.drop n) else none

/-- The bytes up to the next 0. -/
def cstring : Parser Bytes := fun bs =>
  match bs.dropWhile (· ≠ 0#8) with
  | [] => none
  | _ :: rest => some (bs.takeWhile (· ≠ 0#8), rest)

/-- So many of them, one after the other. -/
def many {α : Type} (p : Parser α) : ℕ → Parser (List α)
  | 0, bs => some ([], bs)
  | n + 1, bs => do
    let (x, bs) ← p bs
    let (xs, bs) ← many p n bs
    return (x :: xs, bs)

/-- Values up to the end of the bytes, at most `n` of them. -/
def untilEof {α : Type} (p : Parser α) : ℕ → Bytes → Option (List α)
  | _, [] => some []
  | 0, _ :: _ => none
  | n + 1, b :: bs => do
    let (x, rest) ← p (b :: bs)
    return x :: (← untilEof p n rest)

variable {α : Type} {p : Parser α} {encode : α → Bytes}

/-! ### What is read from an encoding -/

theorem number_bytes {w n : ℕ} (hw : w ≤ 8 * n) (x : BitVec w) (rest : Bytes) :
    number n w (bytes n x ++ rest) = some (x, rest) := by
  rw [number, if_pos (by simp), List.take_left' (bytes_length n x),
    List.drop_left' (bytes_length n x), word_bytes hw]

theorem slice_append {n : ℕ} {bs : Bytes} (hbs : bs.length = n) (rest : Bytes) :
    slice n (bs ++ rest) = some (bs, rest) := by
  rw [slice, if_pos (by simp [hbs]), List.take_left' hbs, List.drop_left' hbs]

theorem cstring_append {s : Bytes} (hs : 0#8 ∉ s) (rest : Bytes) :
    cstring (s ++ 0#8 :: rest) = some (s, rest) := by
  have hall : ∀ b ∈ s, decide (b ≠ 0#8) = true := fun b hb =>
    decide_eq_true fun he => hs (he ▸ hb)
  rw [cstring, List.dropWhile_append_of_pos hall, List.takeWhile_append_of_pos hall]
  simp

/-- A list of values that are read one by one is read as a whole. -/
theorem many_append {xs : List α} (hp : ∀ x ∈ xs, ∀ rest, p (encode x ++ rest) = some (x, rest))
    (rest : Bytes) : many p xs.length (xs.flatMap encode ++ rest) = some (xs, rest) := by
  induction xs with
  | nil => rfl
  | cons x xs ih =>
    have hrest := ih fun y hy => hp y (List.mem_cons_of_mem x hy)
    rw [List.flatMap_cons, List.append_assoc, List.length_cons, many, hp x List.mem_cons_self]
    simp [hrest]

theorem untilEof_flatMap {xs : List α} (hp : ∀ x ∈ xs, encode x ≠ [] ∧
    ∀ rest, p (encode x ++ rest) = some (x, rest)) {n : ℕ} (hn : xs.length ≤ n) :
    untilEof p n (xs.flatMap encode) = some xs := by
  induction xs generalizing n with
  | nil => cases n <;> rfl
  | cons x xs ih =>
    obtain ⟨n, rfl⟩ := Nat.exists_eq_add_one_of_ne_zero (Nat.ne_zero_of_lt hn)
    obtain ⟨hne, hx⟩ := hp x List.mem_cons_self
    obtain ⟨b, bs, hb⟩ := List.exists_cons_of_ne_nil hne
    have hread := hx (xs.flatMap encode)
    have hrest := ih (fun y hy => hp y (List.mem_cons_of_mem x hy)) (Nat.le_of_succ_le_succ hn)
    rw [List.flatMap_cons]
    rw [hb, List.cons_append] at hread ⊢
    rw [untilEof, hread]
    simp [hrest]

/-! ### What is accepted -/

/-- What the parser accepts is an encoding of what it returns, and the rest. -/
def Sound (p : Parser α) (encode : α → Bytes) : Prop :=
  ∀ bs x rest, p bs = some (x, rest) → bs = encode x ++ rest

theorem number_sound (n : ℕ) : Sound (number n (8 * n)) (bytes n) := by
  intro bs x rest h
  rw [number] at h
  split at h
  next hn =>
    cases h
    rw [bytes_word (List.length_take_of_le hn), List.take_append_drop]
  next => cases h

theorem slice_sound (n : ℕ) : Sound (slice n) id := by
  intro bs x rest h
  rw [slice] at h
  split at h
  · cases h
    exact (List.take_append_drop n bs).symm
  · cases h

theorem slice_length {n : ℕ} {bs x rest : Bytes} (h : slice n bs = some (x, rest)) :
    x.length = n := by
  rw [slice] at h
  split at h
  next hn =>
    cases h
    exact List.length_take_of_le hn
  next => cases h

theorem untilEof_sound (hp : Sound p encode) {n : ℕ} {bs : Bytes} {xs : List α}
    (h : untilEof p n bs = some xs) : bs = xs.flatMap encode := by
  induction n generalizing bs xs with
  | zero =>
    cases bs with
    | nil =>
      cases h
      rfl
    | cons b bs => cases h
  | succ n ih =>
    cases bs with
    | nil =>
      cases h
      rfl
    | cons b bs =>
      obtain ⟨⟨x, rest⟩, hx, h⟩ := Option.bind_eq_some_iff.mp h
      obtain ⟨xs', hxs', h⟩ := Option.bind_eq_some_iff.mp h
      cases h
      rw [List.flatMap_cons, ← ih hxs']
      exact hp _ _ _ hx

theorem mem_untilEof {P : α → Prop} (hp : ∀ bs x rest, p bs = some (x, rest) → P x) {n : ℕ}
    {bs : Bytes} {xs : List α} (h : untilEof p n bs = some xs) : ∀ x ∈ xs, P x := by
  induction n generalizing bs xs with
  | zero =>
    cases bs with
    | nil => cases h; simp
    | cons b bs => cases h
  | succ n ih =>
    cases bs with
    | nil => cases h; simp
    | cons b bs =>
      obtain ⟨⟨x, rest⟩, hx, h⟩ := Option.bind_eq_some_iff.mp h
      obtain ⟨xs', hxs', h⟩ := Option.bind_eq_some_iff.mp h
      cases h
      rintro y (_ | ⟨_, hy⟩)
      · exact hp _ _ _ hx
      · exact ih hxs' y hy

end Binary

end Foundations

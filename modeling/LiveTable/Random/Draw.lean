import LiveTable.Random.Stream

/-!
# Draws

What is drawn from a random stream: numbers in a range, truth values with a given
chance, and characters. A number in a range is taken from the high half of a
product of a drawn word and the width of the range, where words that would favour
some numbers are drawn again. Every such try succeeds with a chance of at least
one half, and their number is bounded so that a draw always ends; whatever word is
left at the bound is taken (`within_ge`, `within_le`: the number is in the range
in any case). What is made of drawn numbers does not depend on how they are drawn:
any `Source` will do.
-/

namespace LiveTable.Random

abbrev Draw := StateM Stream

inductive Width where
  | single
  | double
  deriving DecidableEq

def Width.modulus : Width → Nat
  | .single => 0x100000000
  | .double => 0x10000000000000000

namespace Draw

/-- How often a word is drawn again at most. -/
def tries : Nat := 4096

def word : Draw UInt32 := Stream.word

/-- A word; of a double one the low half is drawn first. -/
def raw : Width → Draw Nat
  | .single => do return (← word).toNat
  | .double => do
    let low ← word
    let high ← word
    return low.toNat + Width.single.modulus * high.toNat

/-- Draws until the value passes, or for the last time. -/
def redraw (pass : Nat → Bool) (draw : Draw Nat) : Nat → Draw Nat
  | 0 => draw
  | n + 1 => do
    let v ← draw
    if pass v then return v else redraw pass draw n

/-- The largest low half of a product that does not favour any number: the width of the range,
doubled as often as the word allows, less one. -/
def zone (w : Width) (range : Nat) : Nat :=
  range <<< (Nat.log2 w.modulus - 1 - Nat.log2 range) - 1

def within (w : Width) (low high : Nat) : Draw Nat := do
  let range := high - low + 1
  if range = w.modulus then return low + (← raw w)
  else
    let v ← redraw (fun v => v * range % w.modulus ≤ zone w range) (raw w) tries
    return low + v * range / w.modulus

/-- True for `share` of the words of double width. -/
def chance (share : Nat) : Draw Bool := do
  if share = Width.double.modulus then return true
  else return (← raw .double) < share

def alphabet : List Char :=
  "ABCDEFGHIJKLMNOPQRSTUVWXYZabcdefghijklmnopqrstuvwxyz0123456789".toList

/-- A letter or a digit, by the six high bits of a word. -/
def letter : Draw Char := do
  let index ← redraw (· < alphabet.length) (do return (← raw .single) >>> 26) tries
  return alphabet.getD index 'A'

def times {σ α : Type} (n : Nat) (draw : StateM σ α) : StateM σ (List α) :=
  (List.replicate n draw).mapM id

def text (length : Nat) : Draw String := do return String.ofList (← times length letter)

/-! ## Ranges -/

theorem raw_lt (w : Width) (s : Stream) : (raw w s).1 < w.modulus := by
  cases w with
  | single => exact (Stream.word s).1.toNat_lt
  | double =>
    have h1 := (Stream.word s).1.toNat_lt
    have h2 := (Stream.word (Stream.word s).2).1.toNat_lt
    show (Stream.word s).1.toNat + 0x100000000 * (Stream.word (Stream.word s).2).1.toNat <
      0x10000000000000000
    omega

theorem redraw_lt {pass : Nat → Bool} {draw : Draw Nat} {bound : Nat}
    (h : ∀ s, (draw s).1 < bound) (n : Nat) (s : Stream) : (redraw pass draw n s).1 < bound := by
  induction n generalizing s with
  | zero => exact h s
  | succ n ih =>
    show (ite (pass (draw s).1 = true) (pure (draw s).1 : Draw Nat) (redraw pass draw n)
      (draw s).2).1 < bound
    split
    · exact h s
    · exact ih _

theorem within_ge (w : Width) (low high : Nat) (s : Stream) : low ≤ (within w low high s).1 := by
  unfold within
  split <;> exact Nat.le_add_right ..

theorem within_le (w : Width) {low high : Nat} (h : low ≤ high) (s : Stream) :
    (within w low high s).1 ≤ high := by
  unfold within
  split
  · rename_i hr
    have := raw_lt w s
    show low + (raw w s).1 ≤ high
    omega
  · have hv := @redraw_lt (fun v => v * (high - low + 1) % w.modulus ≤ zone w (high - low + 1))
      _ _ (raw_lt w) tries s
    have hpos : 0 < w.modulus := by cases w <;> decide
    have hq := (Nat.div_lt_iff_lt_mul (y := high - low + 1) hpos).2
      (by rw [Nat.mul_comm _ w.modulus]; exact Nat.mul_lt_mul_of_pos_right hv (Nat.succ_pos _))
    refine Nat.le_trans (Nat.add_le_add_left (Nat.le_of_lt_succ hq) low) ?_
    omega

end Draw

/-! ## Sources -/

/-- What numbers and truth values may be drawn from: a state that every draw changes. Both ends of
a range belong to it. -/
class Source (σ : Type) where
  within (w : Width) (low high : Nat) : StateM σ Nat
  chance (share : Nat) : StateM σ Bool

instance : Source Stream := ⟨Draw.within, Draw.chance⟩

/-- A number that is drawn from a range lies in it, unless the range is empty. -/
def Source.InRange (σ : Type) [Source σ] : Prop :=
  ∀ (w : Width) {low high : Nat}, low ≤ high → ∀ s : σ,
    low ≤ (within w low high s).1 ∧ (within w low high s).1 ≤ high

theorem Stream.inRange : Source.InRange Stream := fun w low high h s =>
  ⟨Draw.within_ge w low high s, Draw.within_le w h s⟩

end LiveTable.Random

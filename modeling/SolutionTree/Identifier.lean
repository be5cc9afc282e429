import SolutionTree.Text.Hex

/-!
Identifiers: sixteen bytes in the order in which their text spells them.

`value` is the number that the text spells in hexadecimal. The mixed-endian layout
stores the first three fields of the text (four, two and two bytes) with their bytes
reversed, and `ofMixed` undoes `toMixed`. `next` adds one in that layout: it goes
through the positions from the last byte of the text to the first, as far as bytes
come back to zero, so that all ones are followed by `nil`. On the text this is a
plain carry (`next_eq_carry`), and `add` takes any number of such steps at once.
-/

namespace SolutionTree

/-- Sixteen bytes, in the order of the text. -/
structure Identifier where
  bytes : Vector UInt8 16
  deriving DecidableEq, Repr

namespace Identifier

/-- The identifier of all zeros. -/
def nil : Identifier := ⟨Vector.replicate 16 0⟩

instance : Inhabited Identifier := ⟨nil⟩

def isNil (id : Identifier) : Bool :=
  id == nil

def valueOf (bytes : List UInt8) : Nat :=
  bytes.foldl (fun n b => 256 * n + b.toNat) 0

/-- The number that the text of an identifier spells. -/
def value (id : Identifier) : Nat :=
  valueOf id.bytes.toList

/-- The order of identifiers: byte by byte, as they read. -/
def compare (a b : Identifier) : Ordering :=
  Ord.compare a.bytes.toList b.bytes.toList

theorem eq_of_toList {a b : Identifier} (h : a.bytes.toList = b.bytes.toList) : a = b :=
  congrArg Identifier.mk (Vector.toList_inj.mp h)

/-! ### The mixed-endian layout -/

/-- Which byte of the text stands at each position of the layout. -/
def mixedOrder : Vector (Fin 16) 16 :=
  #v[3, 2, 1, 0, 5, 4, 7, 6, 8, 9, 10, 11, 12, 13, 14, 15]

/-- The bytes in mixed-endian layout. -/
def toMixed (id : Identifier) : Vector UInt8 16 :=
  mixedOrder.map (id.bytes.get ·)

/-- The identifier with the given mixed-endian layout. -/
def ofMixed (layout : Vector UInt8 16) : Identifier :=
  ⟨mixedOrder.map (layout.get ·)⟩

theorem get_map {α β : Type} {n : Nat} (f : α → β) (v : Vector α n) (i : Fin n) :
    (v.map f).get i = f (v.get i) :=
  Vector.getElem_map f i.isLt

/-- The permutation of the layout turns round the first three groups, each in place,
so that it undoes itself. -/
theorem mixedOrder_mixedOrder (i : Fin 16) : mixedOrder.get (mixedOrder.get i) = i := by
  decide +revert

theorem map_mixedOrder_twice (v : Vector UInt8 16) :
    mixedOrder.map ((mixedOrder.map (v.get ·)).get ·) = v := by
  apply Vector.ext
  intro i hi
  have h : (mixedOrder.map ((mixedOrder.map (v.get ·)).get ·)).get ⟨i, hi⟩ = v.get ⟨i, hi⟩ := by
    rw [get_map, get_map, mixedOrder_mixedOrder]
  exact h

@[simp] theorem ofMixed_toMixed (id : Identifier) : ofMixed id.toMixed = id :=
  congrArg Identifier.mk (map_mixedOrder_twice id.bytes)

/-! ### Counting -/

/-- The positions of the layout from the last byte of the text to the first. -/
def carryOrder : List (Fin 16) := [15, 14, 13, 12, 11, 10, 9, 8, 6, 7, 4, 5, 0, 1, 2, 3]

/-- Adds one to the byte at the first of the positions, and to the byte at the next
one each time that a byte comes back to zero. -/
def carryAlong : List (Fin 16) → Vector UInt8 16 → Vector UInt8 16
  | [], layout => layout
  | i :: positions, layout =>
    let bumped := layout.set i (layout.get i + 1)
    if layout.get i + 1 = 0 then carryAlong positions bumped else bumped

/-- The identifier that follows: one more, and `nil` after all ones. -/
def next (id : Identifier) : Identifier :=
  ofMixed (carryAlong carryOrder id.toMixed)

/-- Adds one to bytes that stand lowest first. -/
def carry : List UInt8 → List UInt8
  | [] => []
  | b :: bs => if b + 1 = 0 then 0 :: carry bs else (b + 1) :: bs

@[simp] theorem length_carry (bs : List UInt8) : (carry bs).length = bs.length := by
  fun_induction carry bs with
  | case1 => rfl
  | case2 b bs h ih => simp [ih]
  | case3 b bs h => rfl

section Along

variable {positions : List (Fin 16)} {layout : Vector UInt8 16} {i j : Fin 16}

theorem get_set_self (b : UInt8) : (layout.set i b).get i = b :=
  Vector.getElem_set_self i.isLt

theorem get_set_of_ne (b : UInt8) (h : j ≠ i) : (layout.set i b).get j = layout.get j :=
  Vector.getElem_set_ne i.isLt j.isLt fun e => h (Fin.ext e.symm)

theorem get_carryAlong_of_notMem (h : j ∉ positions) :
    (carryAlong positions layout).get j = layout.get j := by
  fun_induction carryAlong positions layout with
  | case1 => rfl
  | case2 i positions layout bumped hzero ih =>
    rw [ih (List.not_mem_of_not_mem_cons h)]
    exact get_set_of_ne _ (List.ne_of_not_mem_cons h)
  | case3 i positions layout bumped hzero =>
    exact get_set_of_ne _ (List.ne_of_not_mem_cons h)

theorem map_get_set (b : UInt8) (h : i ∉ positions) :
    positions.map ((layout.set i b).get ·) = positions.map (layout.get ·) :=
  List.map_congr_left fun _ hj => get_set_of_ne b fun e => h (e ▸ hj)

/-- Along positions that are all different, the bytes are carried as they stand
there. -/
theorem map_get_carryAlong (h : positions.Nodup) :
    positions.map ((carryAlong positions layout).get ·) = carry (positions.map (layout.get ·)) := by
  fun_induction carryAlong positions layout with
  | case1 => rfl
  | case2 i positions layout bumped hzero ih =>
    obtain ⟨hi, hpositions⟩ := List.nodup_cons.mp h
    rw [List.map_cons, List.map_cons, carry, if_pos hzero, ih hpositions,
      get_carryAlong_of_notMem hi, map_get_set _ hi, get_set_self, hzero]
  | case3 i positions layout bumped hzero =>
    obtain ⟨hi, -⟩ := List.nodup_cons.mp h
    rw [List.map_cons, List.map_cons, carry, if_neg hzero, map_get_set _ hi, get_set_self]

end Along

theorem reverse_bytes_ofMixed (layout : Vector UInt8 16) :
    (ofMixed layout).bytes.toList.reverse = carryOrder.map (layout.get ·) := by
  have horder : mixedOrder.toList.reverse = carryOrder := by decide
  rw [ofMixed, Vector.toList_map, ← List.map_reverse, horder]

/-- **The carry in the layout is a carry in the text.** `next` adds one in the
mixed-endian layout and walks it in `carryOrder`, which is the text backwards; the
permutation does not show in the result. -/
theorem reverse_bytes_next (id : Identifier) :
    id.next.bytes.toList.reverse = carry id.bytes.toList.reverse := by
  rw [next, reverse_bytes_ofMixed, map_get_carryAlong (by decide), ← reverse_bytes_ofMixed,
    ofMixed_toMixed]

/-- **On the text of an identifier**, the one that follows is a carry from the last
byte. -/
theorem next_eq_carry (id : Identifier) :
    id.next = ⟨⟨(carry id.bytes.toList.reverse).reverse.toArray, by simp⟩⟩ := by
  apply eq_of_toList
  rw [← List.reverse_inj, reverse_bytes_next]
  simp

/-- Adds a number to bytes that stand lowest first. -/
def plus : List UInt8 → Nat → List UInt8
  | [], _ => []
  | b :: bs, n => UInt8.ofNat (b.toNat + n) :: plus bs ((b.toNat + n) / 256)

@[simp] theorem length_plus (bs : List UInt8) (n : Nat) : (plus bs n).length = bs.length := by
  induction bs generalizing n with
  | nil => rfl
  | cons b bs ih => simp [plus, ih]

@[simp] theorem plus_zero (bs : List UInt8) : plus bs 0 = bs := by
  induction bs with
  | nil => rfl
  | cons b bs ih =>
    have hb : b.toNat / 256 = 0 := Nat.div_eq_of_lt b.toNat_lt
    simp [plus, hb, ih]

/-- Adding a number at once is adding its parts one after another, although `plus`
carries what does not fit into a byte and drops what does not fit into the last one.
-/
theorem plus_plus (bs : List UInt8) (m n : Nat) : plus (plus bs m) n = plus bs (m + n) := by
  induction bs generalizing m n with
  | nil => rfl
  | cons b bs ih =>
    have hlow : (UInt8.ofNat (b.toNat + m)).toNat = (b.toNat + m) % 256 := by simp
    have hhigh : (b.toNat + m) / 256 + ((b.toNat + m) % 256 + n) / 256 =
        (b.toNat + (m + n)) / 256 := by omega
    simp only [plus, ih, hlow, hhigh, List.cons.injEq, and_true]
    apply UInt8.toNat.inj
    simp only [UInt8.toNat_ofNat']
    omega

theorem carry_eq_plus (bs : List UInt8) : carry bs = plus bs 1 := by
  fun_induction carry bs with
  | case1 => rfl
  | case2 b bs h ih =>
    have hb : b.toNat = 255 := by
      have := congrArg UInt8.toNat h
      have := b.toNat_lt
      simp only [UInt8.toNat_add, UInt8.toNat_ofNat] at *
      omega
    simp [plus, ih, hb]
  | case3 b bs h =>
    have hb : (b.toNat + 1) / 256 = 0 := by
      have := b.toNat_lt
      have : b.toNat ≠ 255 := fun e => h (by
        apply UInt8.toNat.inj
        simp [UInt8.toNat_add, e])
      omega
    simp [plus, hb]

/-- The identifier that follows after a number of steps. -/
def add (id : Identifier) (n : Nat) : Identifier :=
  ⟨⟨(plus id.bytes.toList.reverse n).reverse.toArray, by simp⟩⟩

@[simp] theorem add_zero (id : Identifier) : id.add 0 = id := by
  obtain ⟨⟨bytes, h⟩⟩ := id
  simp [add, Vector.toList]

theorem add_succ (id : Identifier) (n : Nat) : id.add (n + 1) = id.next.add n := by
  simp [add, next_eq_carry, carry_eq_plus, plus_plus, Nat.add_comm]

end Identifier

/-- A source of identifiers: each draw gives the one after the last. -/
structure Identifier.Supply where
  current : Identifier
  deriving DecidableEq, Repr

namespace Identifier.Supply

def draw (supply : Supply) : Identifier × Supply :=
  let id := supply.current.next
  (id, ⟨id⟩)

def skip (supply : Supply) : Nat → Supply
  | 0 => supply
  | n + 1 => (supply.draw.2).skip n

/-- The supply after a number of draws, found in one step. -/
def advance (supply : Supply) (n : Nat) : Supply :=
  ⟨supply.current.add n⟩

def take (supply : Supply) : Nat → List Identifier × Supply
  | 0 => ([], supply)
  | n + 1 =>
    let (id, rest) := supply.draw
    let (ids, last) := rest.take n
    (id :: ids, last)

@[simp] theorem skip_zero (supply : Supply) : supply.skip 0 = supply := rfl

theorem skip_succ (supply : Supply) (n : Nat) :
    supply.skip (n + 1) = (supply.draw.2).skip n := rfl

theorem skip_add (supply : Supply) (m n : Nat) :
    supply.skip (m + n) = (supply.skip m).skip n := by
  induction m generalizing supply with
  | zero => simp
  | succ m ih => rw [Nat.succ_add, skip_succ, ih, skip_succ]

/-- Drawing one by one comes to the same as adding the number of draws, which is
what lets a large number of them be skipped. -/
theorem skip_eq_advance (supply : Supply) (n : Nat) : supply.skip n = supply.advance n := by
  induction n generalizing supply with
  | zero => simp [advance]
  | succ n ih => simp [skip_succ, ih, advance, draw, Identifier.add_succ]

end Identifier.Supply

end SolutionTree

import StreamQuantiles.Random

/-! How tall a new element stands in the store. A source of levels is asked with the height of the
store and answers any number of levels; the store cuts the answer to size. -/
namespace StreamQuantiles

/-- The tallest a store can grow. -/
def maxLevel : Nat := 32

class LevelSource (σ : Type) where
  /-- The levels of a new element in a store of the given height, and the source that is left. -/
  draw : σ → Nat → Nat × σ

/-- One level, and one more for every head before the first tail. -/
structure CoinLevels (κ : Type) where
  coin : κ
  deriving Repr

namespace CoinLevels

variable {κ : Type} [Coin κ]

/-- The heads before the first tail, in at most the given number of flips. -/
def heads : Nat → κ → Nat × κ
  | 0, coin => (0, coin)
  | flips + 1, coin =>
    match Coin.flip coin with
    | (true, coin) =>
      let (count, coin) := heads flips coin
      (count + 1, coin)
    | (false, coin) => (0, coin)

theorem heads_le (flips : Nat) (coin : κ) : (heads flips coin).1 ≤ flips := by
  induction flips generalizing coin with
  | zero => simp [heads]
  | succ flips ih =>
    unfold heads
    split
    · exact Nat.succ_le_succ (ih _)
    · exact Nat.zero_le _

def draw (s : CoinLevels κ) (height : Nat) : Nat × CoinLevels κ :=
  let (count, coin) := heads height s.coin
  (count + 1, ⟨coin⟩)

instance : LevelSource (CoinLevels κ) := ⟨draw⟩

theorem one_le_draw (s : CoinLevels κ) (height : Nat) : 1 ≤ (s.draw height).1 :=
  Nat.le_add_left _ _

theorem draw_le (s : CoinLevels κ) (height : Nat) : (s.draw height).1 ≤ height + 1 :=
  Nat.succ_le_succ (heads_le _ _)

end CoinLevels

/-- A fixed sequence of answers, repeated without end. -/
structure CyclicLevels where
  levels : List Nat
  position : Nat := 0
  deriving Repr

def CyclicLevels.draw (s : CyclicLevels) (_height : Nat) : Nat × CyclicLevels :=
  (s.levels.getD (s.position % s.levels.length) 0, { s with position := s.position + 1 })

instance : LevelSource CyclicLevels := ⟨CyclicLevels.draw⟩

/-- A fixed number of levels above the height of the store. -/
structure LevelsAbove where
  excess : Nat
  deriving Repr

instance : LevelSource LevelsAbove := ⟨fun s height => (height + s.excess, s)⟩

/-- A source of levels picked at run time. -/
inductive LevelRule where
  | geometric (source : CoinLevels Xoshiro)
  | replayed (source : CoinLevels CyclicBits)
  | cyclic (source : CyclicLevels)
  | above (source : LevelsAbove)
  deriving Repr

namespace LevelRule

def seeded (seed : UInt64) : LevelRule := geometric ⟨Xoshiro.ofSeed seed⟩

def draw (rule : LevelRule) (height : Nat) : Nat × LevelRule :=
  match rule with
  | geometric source => (LevelSource.draw source height).map id geometric
  | replayed source => (LevelSource.draw source height).map id replayed
  | cyclic source => (LevelSource.draw source height).map id cyclic
  | above source => (LevelSource.draw source height).map id above

instance : LevelSource LevelRule := ⟨draw⟩

/-- The answers to a list of heights, asked in turn. -/
def drawAll (rule : LevelRule) : List Nat → List Nat
  | [] => []
  | height :: heights =>
    let (level, rule) := rule.draw height
    level :: rule.drawAll heights

end LevelRule
end StreamQuantiles

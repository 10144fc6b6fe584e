import CueScope.Unicode.Runs

/-!
# Joining of letters

The Unicode property Joining_Type, which tells to which side a letter of a cursive script joins.
-/

namespace CueScope.Unicode

/-- To which side a letter joins. -/
inductive Joining where
  | left
  | right
  | both
  | neither
  /-- Letters join across it. -/
  | transparent
deriving DecidableEq, Repr

/-- Runs of characters that join to the left (`L`), to the right (`R`), to both sides (`D`) or to
neither (`U`), and of transparent ones (`T`). -/
def joiningTable : List String :=
  ["adU 1T 252U 70T 113U 7T 107U 2dT 1U 1T 1U 2T 1U 2T 1U 1T 48U bT 1U 1T 3U 1D 1U 4R 1D 1R 1D",
    "1R 5D 4R dD 1U 7D 1R 2D 15T eU 2D 1T 3R 1U 3R 10D 12R 26D 1R 2D 9R 1D 1R 1D 1R 2D 2R 1U 1R",
    "7T 2U 6T 2U 2T 1U 4T 2R aU 3D 2U 1D fU 1T 1R 1T 3D 5R 4D 1R 9D 1R 1D 1R 1D 1R 2D 1R 1bT 2U",
    "1R bD 3R fD 2R 4D 1R 1D 2R 3D 2R 6D 26U bT 19U 21D 9T 9U 1T 18U 4T 1U 9T 1U 3T 1U 5T 12U 1R",
    "5D 2R 1D 1R aD 1R 1D 3R 3T 4U 1D 1U 4D 1U 1R 1D 2R 5U 13R 3U 1D 2U 5D 1R 1D 7U 9T aD 3R 1U",
    "1R 2D 2R 6D 1R fD 1U 18T 1U 20T 37U 1T 1U 1T 4U 8T 4U 1T 3U 7T aU 2T 1dU 1T 3aU 1T 4U 4T 8U",
    "1T 14U 2T 1aU 1T 2U 2T 39U 1T 4U 2T 4U 2T 2U 3T 3U 1T 1eU 2T 3U 1T bU 2T 39U 1T 4U 5T 1U 2T",
    "4U 1T 14U 2T 16U 6T 1U 1T 3aU 1T 2U 1T 1U 4T 8U 1T 7U 2T bU 2T 1eU 1T 3dU 1T cU 1T 32U 1T 3U",
    "1T 37U 1T 1U 3T 5U 3T 1U 4T 7U 2T bU 2T 1dU 1T 3aU 1T 2U 1T 6U 1T 5U 2T 14U 2T 1cU 2T 39U 2T",
    "4U 4T 8U 1T 14U 2T 1dU 1T 48U 1T 7U 3T 1U 1T 5aU 1T 2U 7T cU 8T 62U 1T 2U 9T bU 7T 49U 2T",
    "1bU 1T 1U 1T 1U 1T 37U eT 1U 5T 1U 2T 5U bT 1U 24T 9U 1T 66U 4T 1U 6T 1U 2T 2U 2T 19U 2T 4U",
    "3T 10U 4T dU 1T 2U 2T 6U 1T fU 1T 2bfU 3T 3b2U 3T 1dU 2T 1eU 2T 1eU 2T 40U 2T 1U 7T 8U 1T 2U",
    "bT 9U 1T 29U 1D 3U 3T 1U 1T 10U 59D cU 2T 22D 1T 1D 75U 3T 4U 2T 9U 1T 6U 3T dbU 2T 2U 1T",
    "3aU 1T 1U 7T 1U 1T 1U 1T 2U 8T 6U aT 2U 1T 30U 2eT 2U cT 14U 4T 30U 1T 1U 5T 1U 1T 5U 1T 28U",
    "9T cU 2T 20U 4T 2U 2T 1U 3T 38U 1T 1U 2T 3U 1T 1U 3T 3aU 8T 2U 2T 98U 3T 1U dT 1U 7T 4U 1T",
    "6U 1T 3U 2T c6U 40T 20bU 1T 2U 2T 1aU 5T 31U 5T 5U 6T 60U 21T bfeU 3T 8dU 1T 60U 20T 22aU 4T",
    "6bU 2T 75d4U 4T 1U aT 20U 2T 50U 2T 110U 1T 3U 1T 4U 1T 19U 2T 5U 1T 13U 32D 1L 51U 2T 1aU",
    "12T dU 1T 26U 8T 19U bT 2eU 3T 30U 1T 2U 4T 2U 2T 27U 1T 43U 6T 2U 2T 2U 2T cU 1T 8U 1T 2fU",
    "1T 33U 1T 1U 3T 2U 2T 5U 2T 1U 1T 2aU 2T 8U 1T eeU 1T 2U 1T 4U 1T 4f30U 1T 2e1U 10T 10U 10T",
    "cfU 1T f9U 3T 201U 1T e2U 1T 95U 5T 686U 3T 1U 2T 5U 4T 28U 3T 4U 1T 80U 5D 1R 1U 1R 1U 2R",
    "2U 1L 5R 4D 1L 5D 1R 3D 1R 2U 1R 2T 4U 4D 1R 90U 1D 1R 1D 3R 3D 1R 2D 1R 1D 2R 1D 1R 17U 4R",
    "2D 151U 1L 21D 1R 1D 4T 41U 5T 13dU 2T 15U 1R 2D 1U 2D 32U 6T 30U 3D 1R 11D 1U bT 3D 1R 1bU",
    "4D 2R cD 4T 2aU 1D 1U 2D 3R 1U 1D 2R 2D 1R 2D 1U 1D 2R 1D 4U 1R 1D 1L 35U 1T 36U fT 29U 1T",
    "2U 2T aU 3T 31U 4T 2U 2T 7U 1T 3dU 3T 24U 5T 1U 8T 3eU 1T cU 2T 34U 9T aU 4T 2U 1T 5fU 3T 2U",
    "1T 1U 2T 6U 1T 2U 1T 9dU 1T 3U 8T 15U 2T 39U 2T 3U 1T 25U 7T 3U 5T 46U 6T dU 1T 1U 1T 1U 1T",
    "eU 2T 55U 8T 2U 3T 1U 1T 17U 1T 54U 6T 1U 1T 4U 2T 1U 2T eeU 4T 6U 2T 1U 2T 1bU 2T 55U 8T 2U",
    "1T 1U 2T 6aU 1T 1U 1T 2U 6T 1U 1T 65U 1T 1U 1T 2U 4T 1U 5T 103U 9T 1U 2T 100U 2T 1U 1T 4U 1T",
    "90U 4T 2U 2T 4U 1T 20U aT 28U 6T 2U 4T 8U 1T 9U 6T 2U 3T 2eU dT 1U 2T c6U 1T 1U 3T 1U 1T c9U",
    "7T 1U 6T 1U 1T 52U 16T 2U 7T 1U 2T 1U 2T 7aU 6T 3U 1T 1U 2T 1U 7T 1U 1T 48U 2T 3U 1T 1U 1T",
    "15bU 2T bU 2T 34U 5T 5U 1T 1U 1T 17U 1T 14d5U 11T 6U fT 2cc8U cT 3U 3T 9c0U 5T 3bU 7T 418U",
    "1T 3fU 4T 51U 1T 4cb8U 2T 1U 4T 125cU 2eT 2U 17T 220U 3T 9U 10T 2U 7T 1eU 4T 94U 3T 7bbU 37T",
    "4U 32T 8U 1T eU 1T 16U 5T 1U fT 550U 7T 1U 11T 2U 7T 1U 2T 1U 5T 64U 1T a0U 7T 177U 1T 3dU",
    "4T 1fcU 4T feU 2T f3U 1T 2U 1T 7U 2T 5U 1T 1daU 7T 29U 44D 8T c16b5U 1T 1eU 60T 80U f0T"]

/-- The way of joining that a letter of the table stands for. -/
def Joining.ofKind (kind : List Char) : Joining :=
  if kind = ['L'] then .left
  else if kind = ['R'] then .right
  else if kind = ['D'] then .both
  else if kind = ['T'] then .transparent
  else .neither

/-- The runs of ways of joining. -/
def joiningRuns : Runs Joining := .ofTable Joining.ofKind joiningTable

/-- How a character joins. -/
def joining (c : Char) : Joining := (joiningRuns.get? c).getD .neither

end CueScope.Unicode

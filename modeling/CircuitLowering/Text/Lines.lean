/-!
# Texts of words and lines
-/

namespace CircuitLowering.Text

/-- Words with a space between neighbours. -/
def words (ws : List String) : String := String.intercalate " " ws

/-- Lines, each with its end. -/
def lines (ls : List String) : String := String.join (ls.map (· ++ "\n"))

end CircuitLowering.Text

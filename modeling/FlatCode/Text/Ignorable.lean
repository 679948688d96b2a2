/-! The characters that a reader is not meant to see: property
Default_Ignorable_Code_Point of Unicode 17. -/
namespace FlatCode.Text

/-- The lengths of the runs of code points, from zero on: others and these, in turn. -/
def ignorable : List Nat :=
  [173, 1, 673, 1, 716, 1, 2882, 2, 1619, 2, 85, 5, 2043, 5, 26, 5, 49, 16, 4340, 1, 52379, 16, 239,
   1, 160, 1, 79, 9, 48295, 4, 5327, 8, 798341, 4096]

end FlatCode.Text

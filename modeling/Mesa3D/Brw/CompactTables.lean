import Mathlib.Data.Nat.Notation

/-!
# Compaction tables

The lookup tables of `brw_eu_compact.c`: the values of the control, data type, sub-register and
source fields that a compacted instruction can name by an index of five bits, and the two tables of
three-source instructions with an index of two bits.
-/

namespace Mesa3D.Brw

/-- `g45_control_index_table`. -/
def g45ControlIndexTable : List ℕ :=
  [0b00000000000000000, 0b01000000000000000, 0b00110000000000000, 0b00000000000000010,
    0b00100000000000000, 0b00010000000000000, 0b01000000000100000, 0b01000000100000000,
    0b01010000000100000, 0b00000000100000010, 0b11000000000000000, 0b00001000100000010,
    0b01001000100000000, 0b00000000100000000, 0b11000000000100000, 0b00001000100000000,
    0b10110000000000000, 0b11010000000100000, 0b00110000100000000, 0b00100000100000000,
    0b01000000000001000, 0b01000000000000100, 0b00111100000000000, 0b00101011000000000,
    0b00110000000010000, 0b00010000100000000, 0b01000000000100100, 0b01000000000101000,
    0b00110000000000110, 0b00000000000001010, 0b01010000000101000, 0b01010000000100100]

/-- `g45_datatype_table`. -/
def g45DatatypeTable : List ℕ :=
  [0b001000000000100001, 0b001011010110101101, 0b001000001000110001, 0b001111011110111101,
    0b001011010110101100, 0b001000000110101101, 0b001000000000100000, 0b010100010110110001,
    0b001100011000101101, 0b001000000000100010, 0b001000001000110110, 0b010000001000110001,
    0b001000001000110010, 0b011000001000110010, 0b001111011110111100, 0b001000000100101000,
    0b010100011000110001, 0b001010010100101001, 0b001000001000101001, 0b010000001000110110,
    0b101000001000110001, 0b001011011000101101, 0b001000000100001001, 0b001011011000101100,
    0b110100011000110001, 0b001000001110111101, 0b110000001000110001, 0b011000000100101010,
    0b101000001000101001, 0b001011010110001100, 0b001000000110100001, 0b001010010100001000]

/-- `g45_subreg_table`. -/
def g45SubregTable : List ℕ :=
  [0b000000000000000, 0b000000010000000, 0b000001000000000, 0b000100000000000,
    0b000000000100000, 0b100000000000000, 0b000000000010000, 0b001100000000000,
    0b001010000000000, 0b000000100000000, 0b001000000000000, 0b000000000001000,
    0b000000001000000, 0b000000000000001, 0b000010000000000, 0b000000010100000,
    0b000000000000111, 0b000001000100000, 0b011000000000000, 0b000000110000000,
    0b000000000000010, 0b000000000000100, 0b000000001100000, 0b000100000000010,
    0b001110011000110, 0b001110100001000, 0b000110011000110, 0b000001000011000,
    0b000110010000100, 0b001100000000110, 0b000000010000110, 0b000001000110000]

/-- `g45_src_index_table`. -/
def g45SrcIndexTable : List ℕ :=
  [0b000000000000, 0b010001101000, 0b010110001000, 0b011010010000, 0b001101001000,
    0b010110001010, 0b010101110000, 0b011001111000, 0b001000101000, 0b000000101000,
    0b010001010000, 0b111101101100, 0b010110001100, 0b010001101100, 0b011010010100,
    0b010001001100, 0b001100101000, 0b000000000010, 0b111101001100, 0b011001101000,
    0b010101001000, 0b000000000100, 0b000000101100, 0b010001101010, 0b000000111000,
    0b010101011000, 0b000100100000, 0b010110000000, 0b010000000100, 0b010000111000,
    0b000101100000, 0b111101110100]

/-- `gen6_control_index_table`. -/
def gen6ControlIndexTable : List ℕ :=
  [0b00000000000000000, 0b01000000000000000, 0b00110000000000000, 0b00000000100000000,
    0b00010000000000000, 0b00001000100000000, 0b00000000100000010, 0b00000000000000010,
    0b01000000100000000, 0b01010000000000000, 0b10110000000000000, 0b00100000000000000,
    0b11010000000000000, 0b11000000000000000, 0b01001000100000000, 0b01000000000001000,
    0b01000000000000100, 0b00000000000001000, 0b00000000000000100, 0b00111000100000000,
    0b00001000100000010, 0b00110000100000000, 0b00110000000000001, 0b00100000000000001,
    0b00110000000000010, 0b00110000000000101, 0b00110000000001001, 0b00110000000010000,
    0b00110000000000011, 0b00110000000000100, 0b00110000100001000, 0b00100000000001001]

/-- `gen6_datatype_table`. -/
def gen6DatatypeTable : List ℕ :=
  [0b001001110000000000, 0b001000110000100000, 0b001001110000000001, 0b001000000001100000,
    0b001010110100101001, 0b001000000110101101, 0b001100011000101100, 0b001011110110101101,
    0b001000000111101100, 0b001000000001100001, 0b001000110010100101, 0b001000000001000001,
    0b001000001000110001, 0b001000001000101001, 0b001000000000100000, 0b001000001000110010,
    0b001010010100101001, 0b001011010010100101, 0b001000000110100101, 0b001100011000101001,
    0b001011011000101100, 0b001011010110100101, 0b001011110110100101, 0b001111011110111101,
    0b001111011110111100, 0b001111011110111101, 0b001111011110011101, 0b001111011110111110,
    0b001000000000100001, 0b001000000000100010, 0b001001111111011101, 0b001000001110111110]

/-- `gen6_subreg_table`. -/
def gen6SubregTable : List ℕ :=
  [0b000000000000000, 0b000000000000100, 0b000000110000000, 0b111000000000000,
    0b011110000001000, 0b000010000000000, 0b000000000010000, 0b000110000001100,
    0b001000000000000, 0b000001000000000, 0b000001010010100, 0b000000001010110,
    0b010000000000000, 0b110000000000000, 0b000100000000000, 0b000000010000000,
    0b000000000001000, 0b100000000000000, 0b000001010000000, 0b001010000000000,
    0b001100000000000, 0b000000001010100, 0b101101010010100, 0b010100000000000,
    0b000000010001111, 0b011000000000000, 0b111110000000000, 0b101000000000000,
    0b000000000001111, 0b000100010001111, 0b001000010001111, 0b000110000000000]

/-- `gen6_src_index_table`. -/
def gen6SrcIndexTable : List ℕ :=
  [0b000000000000, 0b010110001000, 0b010001101000, 0b001000101000, 0b011010010000,
    0b000100100000, 0b010001101100, 0b010101110000, 0b011001111000, 0b001100101000,
    0b010110001100, 0b001000100000, 0b010110001010, 0b000000000010, 0b010101010000,
    0b010101101000, 0b111101001100, 0b111100101100, 0b011001110000, 0b010110001001,
    0b010101011000, 0b001101001000, 0b010000101100, 0b010000000000, 0b001101110000,
    0b001100010000, 0b001100000000, 0b010001101010, 0b001101111000, 0b000001110000,
    0b001100100000, 0b001101010000]

/-- `gen7_control_index_table`. -/
def gen7ControlIndexTable : List ℕ :=
  [0b0000000000000000010, 0b0000100000000000000, 0b0000100000000000001,
    0b0000100000000000010, 0b0000100000000000011, 0b0000100000000000100,
    0b0000100000000000101, 0b0000100000000000111, 0b0000100000000001000,
    0b0000100000000001001, 0b0000100000000001101, 0b0000110000000000000,
    0b0000110000000000001, 0b0000110000000000010, 0b0000110000000000011,
    0b0000110000000000100, 0b0000110000000000101, 0b0000110000000000111,
    0b0000110000000001001, 0b0000110000000001101, 0b0000110000000010000,
    0b0000110000100000000, 0b0001000000000000000, 0b0001000000000000010,
    0b0001000000000000100, 0b0001000000100000000, 0b0010110000000000000,
    0b0010110000000010000, 0b0011000000000000000, 0b0011000000100000000,
    0b0101000000000000000, 0b0101000000100000000]

/-- `gen7_datatype_table`. -/
def gen7DatatypeTable : List ℕ :=
  [0b001000000000000001, 0b001000000000100000, 0b001000000000100001, 0b001000000001100001,
    0b001000000010111101, 0b001000001011111101, 0b001000001110100001, 0b001000001110100101,
    0b001000001110111101, 0b001000010000100001, 0b001000110000100000, 0b001000110000100001,
    0b001001010010100101, 0b001001110010100100, 0b001001110010100101, 0b001111001110111101,
    0b001111011110011101, 0b001111011110111100, 0b001111011110111101, 0b001111111110111100,
    0b000000001000001100, 0b001000000000111101, 0b001000000010100101, 0b001000010000100000,
    0b001001010010100100, 0b001001110010000100, 0b001010010100001001, 0b001101111110111101,
    0b001111111110111101, 0b001011110110101100, 0b001010010100101000, 0b001010110100101000]

/-- `gen7_subreg_table`. -/
def gen7SubregTable : List ℕ :=
  [0b000000000000000, 0b000000000000001, 0b000000000001000, 0b000000000001111,
    0b000000000010000, 0b000000010000000, 0b000000100000000, 0b000000110000000,
    0b000001000000000, 0b000001000010000, 0b000010100000000, 0b001000000000000,
    0b001000000000001, 0b001000010000001, 0b001000010000010, 0b001000010000011,
    0b001000010000100, 0b001000010000111, 0b001000010001000, 0b001000010001110,
    0b001000010001111, 0b001000110000000, 0b001000111101000, 0b010000000000000,
    0b010000110000000, 0b011000000000000, 0b011110010000111, 0b100000000000000,
    0b101000000000000, 0b110000000000000, 0b111000000000000, 0b111000000011100]

/-- `gen7_src_index_table`. -/
def gen7SrcIndexTable : List ℕ :=
  [0b000000000000, 0b000000000010, 0b000000010000, 0b000000010010, 0b000000011000,
    0b000000100000, 0b000000101000, 0b000001001000, 0b000001010000, 0b000001110000,
    0b000001111000, 0b001100000000, 0b001100000010, 0b001100001000, 0b001100010000,
    0b001100010010, 0b001100100000, 0b001100101000, 0b001100111000, 0b001101000000,
    0b001101000010, 0b001101001000, 0b001101010000, 0b001101100000, 0b001101101000,
    0b001101110000, 0b001101110001, 0b001101111000, 0b010001101000, 0b010001101001,
    0b010001101010, 0b010110001000]

/-- `gen8_control_index_table`. -/
def gen8ControlIndexTable : List ℕ :=
  [0b0000000000000000010, 0b0000100000000000000, 0b0000100000000000001,
    0b0000100000000000010, 0b0000100000000000011, 0b0000100000000000100,
    0b0000100000000000101, 0b0000100000000000111, 0b0000100000000001000,
    0b0000100000000001001, 0b0000100000000001101, 0b0000110000000000000,
    0b0000110000000000001, 0b0000110000000000010, 0b0000110000000000011,
    0b0000110000000000100, 0b0000110000000000101, 0b0000110000000000111,
    0b0000110000000001001, 0b0000110000000001101, 0b0000110000000010000,
    0b0000110000100000000, 0b0001000000000000000, 0b0001000000000000010,
    0b0001000000000000100, 0b0001000000100000000, 0b0010110000000000000,
    0b0010110000000010000, 0b0011000000000000000, 0b0011000000100000000,
    0b0101000000000000000, 0b0101000000100000000]

/-- `gen8_datatype_table`. -/
def gen8DatatypeTable : List ℕ :=
  [0b001000000000000000001, 0b001000000000001000000, 0b001000000000001000001,
    0b001000000000011000001, 0b001000000000101011101, 0b001000000010111011101,
    0b001000000011101000001, 0b001000000011101000101, 0b001000000011101011101,
    0b001000001000001000001, 0b001000011000001000000, 0b001000011000001000001,
    0b001000101000101000101, 0b001000111000101000100, 0b001000111000101000101,
    0b001011100011101011101, 0b001011101011100011101, 0b001011101011101011100,
    0b001011101011101011101, 0b001011111011101011100, 0b000000000010000001100,
    0b001000000000001011101, 0b001000000000101000101, 0b001000001000001000000,
    0b001000101000101000100, 0b001000111000100000100, 0b001001001001000001001,
    0b001010111011101011101, 0b001011111011101011101, 0b001001111001101001100,
    0b001001001001001001000, 0b001001011001001001000]

/-- `gen8_subreg_table`. -/
def gen8SubregTable : List ℕ :=
  [0b000000000000000, 0b000000000000001, 0b000000000001000, 0b000000000001111,
    0b000000000010000, 0b000000010000000, 0b000000100000000, 0b000000110000000,
    0b000001000000000, 0b000001000010000, 0b000001010000000, 0b001000000000000,
    0b001000000000001, 0b001000010000001, 0b001000010000010, 0b001000010000011,
    0b001000010000100, 0b001000010000111, 0b001000010001000, 0b001000010001110,
    0b001000010001111, 0b001000110000000, 0b001000111101000, 0b010000000000000,
    0b010000110000000, 0b011000000000000, 0b011110010000111, 0b100000000000000,
    0b101000000000000, 0b110000000000000, 0b111000000000000, 0b111000000011100]

/-- `gen8_src_index_table`. -/
def gen8SrcIndexTable : List ℕ :=
  [0b000000000000, 0b000000000010, 0b000000010000, 0b000000010010, 0b000000011000,
    0b000000100000, 0b000000101000, 0b000001001000, 0b000001010000, 0b000001110000,
    0b000001111000, 0b001100000000, 0b001100000010, 0b001100001000, 0b001100010000,
    0b001100010010, 0b001100100000, 0b001100101000, 0b001100111000, 0b001101000000,
    0b001101000010, 0b001101001000, 0b001101010000, 0b001101100000, 0b001101101000,
    0b001101110000, 0b001101110001, 0b001101111000, 0b010001101000, 0b010001101001,
    0b010001101010, 0b010110001000]

/-- `gen11_datatype_table`. -/
def gen11DatatypeTable : List ℕ :=
  [0b001000000000000000001, 0b001000000000001000000, 0b001000000000001000001,
    0b001000000000011000001, 0b001000000000101100101, 0b001000000101111100101,
    0b001000000100101000001, 0b001000000100101000101, 0b001000000100101100101,
    0b001000001000001000001, 0b001000011000001000000, 0b001000011000001000001,
    0b001000101000101000101, 0b001000111000101000100, 0b001000111000101000101,
    0b001100100100101100101, 0b001100101100100100101, 0b001100101100101100100,
    0b001100101100101100101, 0b001100111100101100100, 0b000000000010000001100,
    0b001000000000001100101, 0b001000000000101000101, 0b001000001000001000000,
    0b001000101000101000100, 0b001000111000100000100, 0b001001001001000001001,
    0b001101111100101100101, 0b001100111100101100101, 0b001001111001101001100,
    0b001001001001001001000, 0b001001011001001001000]

/-- `gen8_3src_control_index_table`. -/
def gen83srcControlIndexTable : List ℕ :=
  [0b00100000000110000000000001, 0b00000000000110000000000001, 0b00000000001000000000000001,
    0b00000000001000000000100001]

/-- `gen8_3src_source_index_table`. -/
def gen83srcSourceIndexTable : List ℕ :=
  [0b0000001110010011100100111001000001111000000000000,
    0b0000001110010011100100111001000001111000000000010,
    0b0000001110010011100100111001000001111000000001000,
    0b0000001110010011100100111001000001111000000100000]

end Mesa3D.Brw

import Mesa3D.Broadcom.QpuInstr

/-!
# Tables of QPU encodings

The tables of `qpu_pack.c`: the signals of each version, and the operations of the two ALUs.
-/

namespace Mesa3D.Qpu

/-- `v33_sig_map`. -/
def v33SigMap : List Sig :=
  [{}, { thrsw := true }, { ldunif := true }, { thrsw := true, ldunif := true },
   { ldtmu := true }, { thrsw := true, ldtmu := true }, { ldtmu := true, ldunif := true },
   { thrsw := true, ldtmu := true, ldunif := true }, { ldvary := true },
   { thrsw := true, ldvary := true }, { ldvary := true, ldunif := true },
   { thrsw := true, ldvary := true, ldunif := true }, { ldvary := true, ldtmu := true },
   { thrsw := true, ldvary := true, ldtmu := true }, { smallImm := true, ldvary := true },
   { smallImm := true }, { ldtlb := true }, { ldtlbu := true }, {}, {}, {}, {}, { ucb := true },
   { rotate := true }, { ldvpm := true }, { thrsw := true, ldvpm := true },
   { ldvpm := true, ldunif := true }, { thrsw := true, ldvpm := true, ldunif := true },
   { ldvpm := true, ldtmu := true }, { thrsw := true, ldvpm := true, ldtmu := true },
   { smallImm := true, ldvpm := true }, { smallImm := true }]

/-- `v40_sig_map`. -/
def v40SigMap : List Sig :=
  [{}, { thrsw := true }, { ldunif := true }, { thrsw := true, ldunif := true },
   { ldtmu := true }, { thrsw := true, ldtmu := true }, { ldtmu := true, ldunif := true },
   { thrsw := true, ldtmu := true, ldunif := true }, { ldvary := true },
   { thrsw := true, ldvary := true }, { ldvary := true, ldunif := true },
   { thrsw := true, ldvary := true, ldunif := true }, {}, {},
   { smallImm := true, ldvary := true }, { smallImm := true }, { ldtlb := true },
   { ldtlbu := true }, { wrtmuc := true }, { thrsw := true, wrtmuc := true },
   { ldvary := true, wrtmuc := true }, { thrsw := true, ldvary := true, wrtmuc := true },
   { ucb := true }, { rotate := true }, {}, {}, {}, {}, {}, {}, {},
   { smallImm := true, ldtmu := true }]

/-- `v41_sig_map`. -/
def v41SigMap : List Sig :=
  [{}, { thrsw := true }, { ldunif := true }, { thrsw := true, ldunif := true },
   { ldtmu := true }, { thrsw := true, ldtmu := true }, { ldtmu := true, ldunif := true },
   { thrsw := true, ldtmu := true, ldunif := true }, { ldvary := true },
   { thrsw := true, ldvary := true }, { ldvary := true, ldunif := true },
   { thrsw := true, ldvary := true, ldunif := true }, { ldunifrf := true },
   { thrsw := true, ldunifrf := true }, { smallImm := true, ldvary := true },
   { smallImm := true }, { ldtlb := true }, { ldtlbu := true }, { wrtmuc := true },
   { thrsw := true, wrtmuc := true }, { ldvary := true, wrtmuc := true },
   { thrsw := true, ldvary := true, wrtmuc := true }, { ucb := true }, { rotate := true },
   { ldunifa := true }, { ldunifarf := true }, {}, {}, {}, {}, {},
   { smallImm := true, ldtmu := true }]

/-- `MUX_MASK`. -/
def muxMask (bot top : ℕ) : ℕ := (1 <<< (top + 1) - 1) - (1 <<< bot - 1)

/-- `ANYMUX`. -/
def anyMux : ℕ := muxMask 0 7

/-- `struct opcode_desc`. -/
structure OpcodeDesc (Op : Type) where
  /-- `opcode_first`. -/
  opcodeFirst : ℕ
  /-- `opcode_last`. -/
  opcodeLast : ℕ
  /-- `mux_b_mask`. -/
  muxBMask : ℕ
  /-- `mux_a_mask`. -/
  muxAMask : ℕ
  /-- The operation. -/
  op : Op
  /-- 0 if it is the same across versions. -/
  ver : ℕ
deriving DecidableEq

/-- `add_ops`. -/
def addOps : List (OpcodeDesc AddOp) :=
  [⟨0, 47, anyMux, anyMux, .fadd, 0⟩,
   ⟨0, 47, anyMux, anyMux, .faddnf, 0⟩,
   ⟨53, 55, anyMux, anyMux, .vfpack, 0⟩,
   ⟨56, 56, anyMux, anyMux, .add, 0⟩,
   ⟨57, 59, anyMux, anyMux, .vfpack, 0⟩,
   ⟨60, 60, anyMux, anyMux, .sub, 0⟩,
   ⟨61, 63, anyMux, anyMux, .vfpack, 0⟩,
   ⟨64, 111, anyMux, anyMux, .fsub, 0⟩,
   ⟨120, 120, anyMux, anyMux, .min, 0⟩,
   ⟨121, 121, anyMux, anyMux, .max, 0⟩,
   ⟨122, 122, anyMux, anyMux, .umin, 0⟩,
   ⟨123, 123, anyMux, anyMux, .umax, 0⟩,
   ⟨124, 124, anyMux, anyMux, .shl, 0⟩,
   ⟨125, 125, anyMux, anyMux, .shr, 0⟩,
   ⟨126, 126, anyMux, anyMux, .asr, 0⟩,
   ⟨127, 127, anyMux, anyMux, .ror, 0⟩,
   ⟨128, 175, anyMux, anyMux, .fmin, 0⟩,
   ⟨128, 175, anyMux, anyMux, .fmax, 0⟩,
   ⟨176, 180, anyMux, anyMux, .vfmin, 0⟩,
   ⟨181, 181, anyMux, anyMux, .and, 0⟩,
   ⟨182, 182, anyMux, anyMux, .or, 0⟩,
   ⟨183, 183, anyMux, anyMux, .xor, 0⟩,
   ⟨184, 184, anyMux, anyMux, .vadd, 0⟩,
   ⟨185, 185, anyMux, anyMux, .vsub, 0⟩,
   ⟨186, 186, 1 <<< 0, anyMux, .not, 0⟩,
   ⟨186, 186, 1 <<< 1, anyMux, .neg, 0⟩,
   ⟨186, 186, 1 <<< 2, anyMux, .flapush, 0⟩,
   ⟨186, 186, 1 <<< 3, anyMux, .flbpush, 0⟩,
   ⟨186, 186, 1 <<< 4, anyMux, .flpop, 0⟩,
   ⟨186, 186, 1 <<< 5, anyMux, .recip, 0⟩,
   ⟨186, 186, 1 <<< 6, anyMux, .setmsf, 0⟩,
   ⟨186, 186, 1 <<< 7, anyMux, .setrevf, 0⟩,
   ⟨187, 187, 1 <<< 0, 1 <<< 0, .nop, 0⟩,
   ⟨187, 187, 1 <<< 0, 1 <<< 1, .tidx, 0⟩,
   ⟨187, 187, 1 <<< 0, 1 <<< 2, .eidx, 0⟩,
   ⟨187, 187, 1 <<< 0, 1 <<< 3, .lr, 0⟩,
   ⟨187, 187, 1 <<< 0, 1 <<< 4, .vfla, 0⟩,
   ⟨187, 187, 1 <<< 0, 1 <<< 5, .vflna, 0⟩,
   ⟨187, 187, 1 <<< 0, 1 <<< 6, .vflb, 0⟩,
   ⟨187, 187, 1 <<< 0, 1 <<< 7, .vflnb, 0⟩,
   ⟨187, 187, 1 <<< 1, muxMask 0 2, .fxcd, 0⟩,
   ⟨187, 187, 1 <<< 1, 1 <<< 3, .xcd, 0⟩,
   ⟨187, 187, 1 <<< 1, muxMask 4 6, .fycd, 0⟩,
   ⟨187, 187, 1 <<< 1, 1 <<< 7, .ycd, 0⟩,
   ⟨187, 187, 1 <<< 2, 1 <<< 0, .msf, 0⟩,
   ⟨187, 187, 1 <<< 2, 1 <<< 1, .revf, 0⟩,
   ⟨187, 187, 1 <<< 2, 1 <<< 2, .vdwwt, 33⟩,
   ⟨187, 187, 1 <<< 2, 1 <<< 2, .iid, 40⟩,
   ⟨187, 187, 1 <<< 2, 1 <<< 3, .sampid, 40⟩,
   ⟨187, 187, 1 <<< 2, 1 <<< 4, .barrierid, 40⟩,
   ⟨187, 187, 1 <<< 2, 1 <<< 5, .tmuwt, 0⟩,
   ⟨187, 187, 1 <<< 2, 1 <<< 6, .vpmwt, 0⟩,
   ⟨187, 187, 1 <<< 3, anyMux, .vpmsetup, 33⟩,
   ⟨188, 188, 1 <<< 0, anyMux, .ldvpmvIn, 40⟩,
   ⟨188, 188, 1 <<< 1, anyMux, .ldvpmdIn, 40⟩,
   ⟨188, 188, 1 <<< 2, anyMux, .ldvpmp, 40⟩,
   ⟨188, 188, 1 <<< 3, anyMux, .rsqrt, 41⟩,
   ⟨188, 188, 1 <<< 4, anyMux, .exp, 41⟩,
   ⟨188, 188, 1 <<< 5, anyMux, .log, 41⟩,
   ⟨188, 188, 1 <<< 6, anyMux, .sin, 41⟩,
   ⟨188, 188, 1 <<< 7, anyMux, .rsqrt2, 41⟩,
   ⟨189, 189, anyMux, anyMux, .ldvpmgIn, 40⟩,
   ⟨192, 239, anyMux, anyMux, .fcmp, 0⟩,
   ⟨240, 244, anyMux, anyMux, .vfmax, 0⟩,
   ⟨245, 245, muxMask 0 2, anyMux, .fround, 0⟩,
   ⟨245, 245, 1 <<< 3, anyMux, .ftoin, 0⟩,
   ⟨245, 245, muxMask 4 6, anyMux, .ftrunc, 0⟩,
   ⟨245, 245, 1 <<< 7, anyMux, .ftoiz, 0⟩,
   ⟨246, 246, muxMask 0 2, anyMux, .ffloor, 0⟩,
   ⟨246, 246, 1 <<< 3, anyMux, .ftouz, 0⟩,
   ⟨246, 246, muxMask 4 6, anyMux, .fceil, 0⟩,
   ⟨246, 246, 1 <<< 7, anyMux, .ftoc, 0⟩,
   ⟨247, 247, muxMask 0 2, anyMux, .fdx, 0⟩,
   ⟨247, 247, muxMask 4 6, anyMux, .fdy, 0⟩,
   ⟨248, 248, anyMux, anyMux, .stvpmv, 0⟩,
   ⟨248, 248, anyMux, anyMux, .stvpmd, 0⟩,
   ⟨248, 248, anyMux, anyMux, .stvpmp, 0⟩,
   ⟨252, 252, muxMask 0 2, anyMux, .itof, 0⟩,
   ⟨252, 252, 1 <<< 3, anyMux, .clz, 0⟩,
   ⟨252, 252, muxMask 4 6, anyMux, .utof, 0⟩]

/-- `mul_ops`. -/
def mulOps : List (OpcodeDesc MulOp) :=
  [⟨1, 1, anyMux, anyMux, .add, 0⟩,
   ⟨2, 2, anyMux, anyMux, .sub, 0⟩,
   ⟨3, 3, anyMux, anyMux, .umul24, 0⟩,
   ⟨4, 8, anyMux, anyMux, .vfmul, 0⟩,
   ⟨9, 9, anyMux, anyMux, .smul24, 0⟩,
   ⟨10, 10, anyMux, anyMux, .multop, 0⟩,
   ⟨14, 14, anyMux, anyMux, .fmov, 0⟩,
   ⟨15, 15, muxMask 0 3, anyMux, .fmov, 0⟩,
   ⟨15, 15, 1 <<< 4, 1 <<< 0, .nop, 0⟩,
   ⟨15, 15, 1 <<< 7, anyMux, .mov, 0⟩,
   ⟨16, 63, anyMux, anyMux, .fmul, 0⟩]

end Mesa3D.Qpu

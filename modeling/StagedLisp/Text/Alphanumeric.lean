/-! Alphanumeric characters: the alphabetic ones together with the decimal, letter and other
numbers. The ASCII part is core's own class; a table lists what lies beyond it. -/
namespace StagedLisp.Text

/-- A class of code points is given by the lengths of the runs outside and inside it, by turns, from
zero on. -/
def inRuns : List Nat → Nat → Bool
  | outside :: inside :: rest, code =>
    outside ≤ code && (code < outside + inside || inRuns rest (code - (outside + inside)))
  | _, _ => false

/-- Numbers in a compact form. A character from `0` to `Z` is the last digit of a number, to base 43; letters
from `a` on before it are higher digits, to base 26. -/
def numbersFrom (high : Nat) : List Char → List Nat
  | [] => []
  | c :: rest =>
    if c.toNat < 91 then (43 * high + (c.toNat - 48)) :: numbersFrom 0 rest
    else numbersFrom (26 * high + (c.toNat - 97)) rest

def numbers (text : String) : List Nat := numbersFrom 0 (text.toList.filter (!·.isWhitespace))

/-- Alphanumeric code points above ASCII, as runs. -/
def alphanumericRuns : List Nat := numbers "
  dY1721132131G1O1kL4<>57111c01MB1224116113111D1bX1d:8dU1V216YW>111212118K44M;5b=1A4c@18484@21@b5=c?>b092415H2CCI7
  ;5H17718Z:<376bQ1@134?2:1C18222F171134382222118142152<26214316422F171212124542224174117@;319131F17121539131231?4
  2:944318222F1712153822229242152:17:216331432111232333<4533133161>===131G1@381313821312242:871418131G1:1538131382
  53142:13<=131Y281313115@2C16131B3H1911278611186:22=b?57612:W211151H111C132511612:24P1OD<81T4C4@1TbHb<112?6bS2V11
  512b01hP142711142Y142Q142711142?1b>142bH>D3@@c0263oB2A1J5bP3;7D;E<D<=1312<b92C>1413:6:F:6c37b05bK:O1<49=X25;b14J
  6;UL4bD2D;:6:=1G2;3b6b91?183:VZ2b?1;>b<9:3b62;5b023Y41612315eDCR;gD262V26281111111O2b:1711331734264=5317cM2265;6
  =c?1412:1135611111141;2455411b?qVbAJbOoLNba>f>6432912V11512b=71@G97171717171717171Pb41kW3I975254c0631c4145b01c83
  4:Pb5@P:N81?P:W?hCfx=bEtv<bHb32g;3LDb4583cKW92cA2bWDE1Q86:b9<bI11::H6311b35S=M3b81<?;6O1b<9>2:6G3bJ1111H32@24;62
  62697171b01>6cU5:6jzS<G4b6hoHiF2cDV7<55<1=151112121cFQiCBbE2b;X<cN51d6C:7J6J;c336262623S<1J1C121?2>RcU<b2<b>A2fM
  M3b6@K4T9N5b05N2T4815ZdM2:6T4T4X8b9<;1?17121;1?17123b9<h:9F:8H61Z19bJ6211b112312G2O2V89b5C125Q4J6JVb=4D2b7125813
  1M:9GO1PP81L65@b;:F2K5JG7bUbNb<b8=b87b38:6V315Gf3O1Z1232@6b733X8F;4KBb3LDG9bK<N15:b>91=I7:6b83:448S319bE149=114D
  ;B1R2164bC711141?1:7b>7:6418222F171215382222316157L:11211V1:112114123111b1bG13145:53NbG22118:dUb;27I6RbD1131;:Vb
  ;217:6DLK2>5<47e=b>cAbX<82128121N122224=:bK82b3261112Kb82:AbM51BbNcA8c2Q?:691b21711?M5N2F1>bN7121b131121311228:6
  6121U1214117:6b14:fOG9A1Y33?:c01?Eb0vCc@cIAeHcj=c;?yXA6IdoW5nHgd4b41:bo>n:7O1:6bT1:6NBb5@4<:171E5Ck2b23:eJc19I2I
  b1bP4b>7AbE211<79gpMYPc;cMhu?417121gQ?1M321>48j9cbMcE5=397:41dt6:bi@D<DcFId6bZ1bL122122241<11171bF1428171L141511
  371hW2I1I1O1I1O1I1O1I1O1I182b7bpMO66eY71A2712155bCQ1cJb2:72:41hDNBb14:kXL4:eZN2;eIO1F82f9714121?1eI29b5bI31314:s
  Ab@1314bQb21?eF41K1211211:141111614111111312112111111111121124171414111:1A53151AnE=SJ6J6JcjW:xYbmfEPdxW2fe<2grR?
  oDcf?mJbj1ekU5hpC"

def isAlphanumeric (c : Char) : Bool :=
  c.isAlphanum || (127 < c.toNat && inRuns alphanumericRuns c.toNat)

end StagedLisp.Text

import StagedLisp.Text.Alphanumeric

/-! Classes of characters by what they do to the cluster boundaries around them. -/
namespace StagedLisp.Text

inductive GraphemeClass where
  | other
  | carriageReturn
  | lineFeed
  | control
  | extend
  /-- Extends a cluster like `extend`, and makes a conjunct of the consonants around it. -/
  | linker
  /-- Extends a cluster like `extend`, but keeps consonants apart. -/
  | nonJoiner
  | joiner
  | spacing
  | leading
  | regional
  /-- Parts of a Hangul syllable: first consonant, vowel, last consonant. -/
  | initial | vowel | final
  /-- Whole Hangul syllables, without and with a last consonant. -/
  | openSyllable | closedSyllable
  | consonant
  | pictograph
deriving DecidableEq, Repr

namespace GraphemeClass

/-- Controls and format characters from `DEL` on. -/
def controlRuns : List Nat := numbers "
  cYQ=1bg>1ecS1bvG122H7b6@byz01fI<lyR@bffW4etV8bbmc3Pc:cZfIdfO"

/-- Marks and emoji modifiers that extend the cluster before them, linkers apart. -/
def extendRuns : List Nat := numbers "
  rUcJgA7g5b211121211bM;b5E@1c?7262214S1NKc5;b?991H4191315b03b@9ZH1Pb<1114887:2M1b?11124B1:2J122b>142422331N231;2b
  >14512I2F611b?11214@3:2N1b@111<191X131b<113531382;2M1b?12211331472;2L2b>21124B1:2M1bM141231181bV127<8c<129;7bN2K
  11111b<>15125;1T91c@4162122I243@4=12261?1q?3w04L3M2N2bE21781291191b2311cO2R1cP3429163f4221b?11731286:21b5b32<D4b
  5:42W9<2P42312b=1123115b=822dG31=17416132eJbEqPQctA3d<1c:PmV6cC2bazE41:P2bU2g>13141I251dF2JB=1V8I;11b13b512422W1
  bH62222<181b41b8113225211Z2fP12141sdC1r6@@@iF2o31f;1dD5bmT31254X3dY2n>4bF5h@2bR6bK;b64cU1b;?Y122:3b642271bB3T516
  11bC1<2b99118421c93246121dL138E2b>21111<191>735bH1261121134221>2bZ82311G1bV12611211212fD1246212K2bZ82112cD11128c
  ?1112415g1912fN1:351d?42241P:X624B623b3=11eK11311eM71611bWF271212cT631121711bM23111i32;2b9552H1euA16?kgJ<33cg25b
  @7y@1bD4bV1;2roC2efBb32GmJ5368827N4dC3bu1b<4b781>1F51?bfK71A271215c>1dO7iO1bB4lS4fW2fL1217251l17cG7clK5bbef=c:cZ
  fI"

/-- Marks that link the consonant before them to the one after. -/
def linkerRuns : List Nat := numbers "
  cd@1cY1fX1cY1fX1fX1r@1bt91p81f<1c@1bgnU1h81vv;1bp@1pG1bg=1g61bV1bbO1"

/-- Spacing marks that belong to the cluster before them. -/
def spacingRuns : List Nat := numbers "
  cbL1b<1238412b72b@26222b;1b?3bG1b?38112b:2bA16222cL1123313b93bB4bB2b?12112b31>2b@25313b:2bQ267C2bD1cY1d92bD1e519
  2I2b11bqS17812i24234216f92b?111E6d@1b>4bE1N142bD12311b:882dZ1E1bfwG221c22b7@d=1b51b524222cI222H1dL12251fF2121211
  wxR111cY1b2342cM1H2b@1b5391>1c7332e03O2b@1142222E2bZ2?112cA38231cE261121121fG26421cK38211cG112cH171g3391fQ512711
  1d=38441bY1M2bC1eM13111eK1>1cD17121eY54211i62<1b5282pcB3dg8b<"

/-- Signs that belong to the cluster after them. -/
def leadingRuns : List Nat := numbers "
  bjO6f01b61iX2bU1ba=1chkF1?1fM2m91bg=111hE6q<1k=1"

/-- Consonants that a linker can bind to the one before. -/
def consonantRuns : List Nat := numbers "
  cc3UN8H8ED171134R211@2dRD171215bD1KD171215R211A1dRD1@N3e>VqEb0D1@6443132734=<1bp>b9oBb:e:26QA8b;N=2;3bgm733Tb252
  9:5c;@136132c:;eYKvoE1?4131MboETM121n9:11211VbfE72128121HeT1:XM1;XbaR=1R"

/-- Pictographs that a joiner can bind to the one before. -/
def pictographRuns : List Nat := numbers "
  dX141hfT1<1f11F1c46?2iG2<1dU1I;43eK1f@2:191b?415912122214121122131328351115<;2211211B122B6111232512242;252215211
  12D256142141212611211111613161:2?12141114311;2b5391>1>1iL2kQ3C2b8141bcV1<1nZ111dxzQ1W4c><?2?1>2U:cJ2<2>12:Cb=K?:
  1D129149G6e@2cJ22132bX23145fW1bD;61H7228<1242142=221829153<38321114161316c0b5bK582A31162=f3V<4b=8:6X8N2<42>9W<b4
  1:1e=c28>dAfYxQ"

/-- The classes with their runs. No code point is in two of them. -/
def runs : List (GraphemeClass × List Nat) := [
  (.extend,extendRuns),(.linker,linkerRuns),(.spacing,spacingRuns),
  (.control,controlRuns),(.leading,leadingRuns),(.consonant,consonantRuns),
  (.pictograph,pictographRuns),(.nonJoiner,[8204,1]),(.joiner,[8205,1]),
  (.regional,[127462,26]),
  (.initial,[4352,96,38912,29]),
  (.vowel,[4448,72,50696,23,38300,1,3,4]),
  (.final,[4520,88,50635,49])]

def ofSyllable (code : Nat) : GraphemeClass :=
  if (code - 0xac00) % 28 = 0 then .openSyllable else .closedSyllable

def ofChar (c : Char) : GraphemeClass :=
  let code := c.toNat
  if c == '\r' then .carriageReturn
  else if c == '\n' then .lineFeed
  else if code < 32 then .control
  else if code < 127 then .other
  else if 0xac00 ≤ code && code ≤ 0xd7a3 then ofSyllable code
  else ((runs.find? fun entry => inRuns entry.2 code).map Prod.fst).getD .other

end GraphemeClass

end StagedLisp.Text

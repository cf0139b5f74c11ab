import StagedLisp.Text.Alphanumeric

/-! Characters that show by themselves. Controls, format characters, private and unassigned code
points, separators other than the space, and marks that extend the grapheme before them do not.
Nor do the letters a display may ignore, such as the Hangul fillers; a letter that extends a
grapheme, such as a halfwidth katakana sound mark, takes its own place and does. -/
namespace StagedLisp.Text

def hiddenRuns : List Nat := numbers "
  cYR<1nScJ82647111D1f97dU1V2b723b311121219K46A:;11b3E@1c?8162214P211NMc3;1>b0973H4191317?1I511;5P@Zb>b<111484137:
  2M1218222F1711343112622211=2134H5116422F1712121243H4117:2311<119131F17121534811231?24<718218222F17121531216222?2
  134B;116331432111232333<5112331331EE6318131G1@3134C312224:7:1;131G1:15322112G3124:13>;131Y2112531312431:4J221B3H
  19112792677:23<b512;88=U211151H111:129125119:24PH2K11111>1TB15125b68161=Ub24161222I243@4=12261?1X11512d>2fA14271
  1142Y142Q142711142?1b>142bH5M3J6c0262oV1L3c37B=C329B>=13?b9217812;93:6:6;5:6c3752R115bK:O44234216713Z25;b14J6;3b
  >223b=11911286=:6:6>c0b5:4381M9<2P426b=112311=b5825?3bC5b02;;1=1741613215eDbEgD262V26281111111O2b:1?1>261C2319AH
  8b4A22K1=3RbCd;4pEF;Ebq62iQ325b211512b=72?G9717171717171717Qc8RJ1c3<eZJ@1Y6@1c04c?5b01b81Z1c09b51baf:3b<9i4Db441
  :P2bU268f6DA13141I254:6b=8bI:<H=1V8I;1<N6b51242221=1;471I1Y6222;318112:2P1b81132252111HA28;6262697171bA4cO12143:
  6jzS<G4b6hoHiF2cDV7<5511H151112121p5P@@:FS1C14451d64dN1N362626233717=22<1J1C121?2>RcU534b23c21=31b4b2d2M3b6@K4T9
  N5V:N1U4>ZdM2:6T4T4X8b9;<1?17121;1?17123b9<h:9F:8H61Z19bJ6211b112312G1bM89b5C125Q3K5KVb=4D2b4?4131M:9797bEPU6<9b
  ;3M2K5J74<7bUbNb<b8=b87Z<:6V8H82eTO1Z3122@689WX8F;9FB44VLDG911b;?74N1221<b6422214>I7:9T519B8S13;b99118421@1D;B1L
  324612bD711141?1;6b413=:8218222F171215311114222231<7L:11211V1112?112311312Wb=82311E1113Nb51261121121248:dUb41264
  212KTb8821124;:6=Cb01112826:6DLK3112419Ge=b49121c>bX<82128121H151264139:bK82Z8414K1:X624891623b3=129=bN7:c113111
  c2R>:691V>116:M3PI17121bP7121VE19:66121U4211117:6b14:fOC249?1T823Gc01?b7=vDc@cI15;eHcj=c==yXA6IdoW5nHgd4N<33:bo>
  n:7O1:4bV1:6N71:b57?::171E5Ck2b?eJc55I2Ib1bP5b=;=bE4>59gpMYPc;cMhu?417121gQ?1M321>48j9cbMcE5=397:2121dnGfV3k66G?
  Ac9cNbAfO:W2bA53F27N4bBEbG31cTD<D<c19Id6bZ1bL122122241<11171bF1428171L141511371hW2gR2n3b<4b781>17baFO66g3bCdAb2:
  72:42hCNBb14:51kRL4:eZN2;41eDO1312172592f9714121?1eI29b5bI714:42s;bIbQbBeF41K1211211:141111614111111312112111111
  111121124171414111:1A53151Ab92g<b14c><?2?1?1U:e2b=M=b14972>6dIwW3A3=3f36<41?<4b=8:6X8N2<42>9Wi08>2=3;3b>114@2<4:
  7dB1cAxXbmfEPdxW2fe<2grR?oDcf?mJbj1ekU5hpCbfcqV"

def isGraphic (c : Char) : Bool :=
  32 ≤ c.toNat && (c.toNat < 127 || !inRuns hiddenRuns c.toNat)

end StagedLisp.Text

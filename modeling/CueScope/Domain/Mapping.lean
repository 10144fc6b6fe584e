import CueScope.Unicode.Runs

/-!
# Characters of domains

Before a domain is looked up, each of its characters is kept, left out or replaced, most often by
its small form (the mapping of Unicode technical standard 46). A domain with any other character is
no domain. The characters of ASCII are kept, its capital letters replaced; which of them are
allowed is not decided here.
-/

namespace CueScope.Domain

/-- What becomes of the characters of a run. -/
inductive Mapping where
  | kept
  | leftOut
  | refused
  /-- Each first of two is replaced by the second, which is kept. -/
  | paired
  /-- Replaced one by one by the characters from a number on. -/
  | shifted (first : Nat)
  /-- Each replaced by the same characters. -/
  | replaced (chars : List Char)
deriving DecidableEq, Repr

/-- Runs of characters that are kept (`V`), left out (`I`), refused (`X`), paired (`P`), replaced by
the characters from a number on (`T`) or by a sequence (`S`). -/
def mappingTable : List String :=
  ["41V 1aT61 25V 20X 1T20 7V 1S20.308 1V 1T61 2V 1I 1V 1S20.304 2V 2T32 1S20.301 1T3bc 2V",
    "1S20.327 1T31 1T6f 1V 1S31.2044.34 1S31.2044.32 1S33.2044.34 1V 17Te0 1V 7Tf8 21V 30P",
    "1S69.307 1V 2S69.6a 4P 1V 6P 2S6c.b7 8P 1S2bc.6e 2eP 1Tff 6P 1T73 1V 1T253 4P 1T254 2P 2T256",
    "2P 1V 1T1dd 1T259 1T25b 2P 1T260 1T263 1V 1T269 1T268 2P 2V 1T26f 1T272 1V 1T275 6P 1T280 2P",
    "1T283 2V 2P 1T288 2P 2T28a 4P 1T292 2P 2V 2P 6V 3S64.17e 3S6c.6a 3S6e.6a 10P 1V 12P 1V",
    "3S64.7a 2P 1T195 1T1bf 28P 1T19e 1V 12P 6V 1T2c65 2P 1T19a 1T2c66 2V 2P 1T180 1T289 1T28c aP",
    "60V 1T68 1T266 1T6a 1T72 1T279 1T27b 1T281 1T77 1T79 1fV 1S20.306 1S20.307 1S20.30a 1S20.328",
    "1S20.303 1S20.30b 2V 1T263 1T6c 1T73 1T78 1T295 5bV 2T300 1V 1T313 1S308.301 1T3b9 9V 1I 20V",
    "4P 1T2b9 1V 2P 2X 1S20.3b9 3V 1T3b 1T3f3 4X 1S20.301 1S20.308.301 1T3ac 1Tb7 3T3ad 1X 1T3cc",
    "1X 2T3cd 1V 11T3b1 1X 9T3c3 23V 1T3d7 1T3b2 1T3b8 1T3c5 1T3cd 1T3cb 1T3c6 1T3c0 1V 18P 1T3ba",
    "1T3c1 1T3c3 1V 1T3b8 1T3b5 1V 2P 1T3c3 2P 1V 3T37b 10T450 20T430 30V 22P 8V 36P 1T4cf eP 1V",
    "60P 1X 26T561 2X 2eV 1S565.582 3V 2X 3V 1X 37V 8X 1bV 4X 6V 11X 16V 1X 58V 1S627.674",
    "1S648.674 1S6c7.674 1S64a.674 64V 1X 30V 2X 3bV 2X 65V eX 3bV 2X 31V 2X fV 1X 1cV 2X 1V 1X",
    "bV 5X 20V 7X 4bV 1X 75V 1S915.93c 1S916.93c 1S917.93c 1S91c.93c 1S921.93c 1S922.93c",
    "1S92b.93c 1S92f.93c 24V 1X 8V 2X 2V 2X 16V 1X 7V 1X 1V 3X 4V 2X 9V 2X 2V 2X 4V 8X 1V 4X",
    "1S9a1.9bc 1S9a2.9bc 1X 1S9af.9bc 4V 2X 19V 2X 3V 1X 6V 4X 2V 2X 16V 1X 7V 1X 1V 1Sa32.a3c 1X",
    "1V 1Sa38.a3c 1X 2V 2X 1V 1X 5V 4X 2V 2X 3V 3X 1V 7X 1Sa16.a3c 1Sa17.a3c 1Sa1c.a3c 1V 1X",
    "1Sa2b.a3c 7X 11V aX 3V 1X 9V 1X 3V 1X 16V 1X 7V 1X 2V 1X 5V 2X aV 1X 3V 1X 3V 2X 1V fX 4V 2X",
    "cV 7X 7V 1X 3V 1X 8V 2X 2V 2X 16V 1X 7V 1X 2V 1X 5V 2X 9V 2X 2V 2X 3V 7X 3V 4X 1Sb21.b3c",
    "1Sb22.b3c 1X 5V 2X 12V aX 2V 1X 6V 3X 3V 1X 4V 3X 2V 1X 1V 1X 2V 3X 2V 3X 3V 3X cV 4X 5V 3X",
    "3V 1X 4V 2X 1V 6X 1V eX 15V 5X dV 1X 3V 1X 17V 1X 10V 2X 9V 1X 3V 1X 4V 7X 2V 1X 3V 1X 2V 2X",
    "4V 2X aV 7X 16V 1X 3V 1X 17V 1X aV 1X 5V 2X 9V 1X 3V 1X 4V 7X 2V 5X 3V 1X 4V 2X aV 1X 3V cX",
    "dV 1X 3V 1X 33V 1X 3V 1X 6V 4X 10V 2X 1aV 1X 3V 1X 12V 3X 18V 1X 9V 1X 1V 2X 7V 3X 1V 4X 6V",
    "1X 1V 1X 8V 6X aV 2X 3V cX 32V 1Se4d.e32 7V 4X 1dV 25X 2V 1X 1V 1X 5V 1X 18V 1X 1V 1X cV",
    "1Secd.eb2 aV 2X 5V 1X 1V 1X 7V 1X aV 2X 1Seab.e99 1Seab.ea1 2V 20X cV 1Tf0b 36V 1Sf42.fb7 4V",
    "1X 4V 1Sf4c.fb7 4V 1Sf51.fb7 4V 1Sf56.fb7 4V 1Sf5b.fb7 cV 1Sf40.fb5 3V 4X 2V 1Sf71.f72 1V",
    "1Sf71.f74 1Sfb2.f80 1Sfb2.f71.f80 1Sfb3.f80 1Sfb3.f71.f80 7V 1Sf71.f80 11V 1Sf92.fb7 4V 1X",
    "4V 1Sf9c.fb7 4V 1Sfa1.fb7 4V 1Sfa6.fb7 4V 1Sfab.fb7 cV 1Sf90.fb5 3V 1X fV 1X dV 25X a0V",
    "26T2d00 1X 1T2d27 5X 1T2d2d 2X 2cV 1T10dc 62V 2I e8V 1X 4V 2X 7V 1X 1V 1X 4V 2X 29V 1X 4V 2X",
    "21V 1X 4V 2X 7V 1X 1V 1X 4V 2X fV 1X 39V 1X 4V 2X 43V 2X 20V 3X 1aV 6X 56V 2X 6T13f0 2X 280V",
    "1X 1cV 3X 59V 7X 16V 9X 18V 9X 14V cX dV 1X 3V 1X 2V cX 34V 2I 28V 2X aV 6X aV 6X bV 5I aV",
    "6X 59V 7X 2bV 5X 46V aX 1fV 1X cV 4X cV 4X 1V 3X 2aV 2X 5V bX 2cV 4X 1aV 6X bV 3X 3eV 2X 41V",
    "1X 1dV 2X bV 6X aV 6X eV 2X 2eV 2X cV 14X 4dV 1X a6V 8X 3cV 3X fV 3X 33V 1T432 1T434 1T43e",
    "2T441 1T442 1T44a 1T463 1Ta64b 2P 5X 2bT10d0 2X 3T10fd 8V 8X 2bV 5X 2cV 1T61 1Te6 1T62 1V",
    "2T64 1T1dd 8T67 1V 1T6f 1T223 1T70 1T72 2T74 1T77 1T61 2T250 1T1d02 1T62 2T64 1T259 2T25b",
    "1T67 1V 1T6b 1T6d 1T14b 1T6f 1T254 2T1d16 1T70 2T74 1T1d1d 1T26f 1T76 1T1d25 3T3b2 2T3c6",
    "1T69 1T72 2T75 2T3b2 1T3c1 2T3c6 dV 1T43d 22V 1T252 1T63 1T255 1Tf0 1T25c 1T66 1T25f 1T261",
    "1T265 3T268 1T1d7b 1T29d 1T26d 1T1d85 1T29f 1T271 1T270 4T272 1T278 2T282 1T1ab 2T289 1T1d1c",
    "2T28b 1T7a 3T290 1T3b8 40V 96P 4V 1S61.2be 1T1e61 2V 1Tdf 1V 60P 8V 8T1f00 6V 2X 6T1f10 2X",
    "8V 8T1f20 8V 8T1f30 6V 2X 6T1f40 2X 8V 1X 1T1f51 1X 1T1f53 1X 1T1f55 1X 1T1f57 8V 8T1f60 1V",
    "1T3ac 1V 1T3ad 1V 1T3ae 1V 1T3af 1V 1T3cc 1V 1T3cd 1V 1T3ce 2X 1S1f00.3b9 1S1f01.3b9",
    "1S1f02.3b9 1S1f03.3b9 1S1f04.3b9 1S1f05.3b9 1S1f06.3b9 1S1f07.3b9 1S1f00.3b9 1S1f01.3b9",
    "1S1f02.3b9 1S1f03.3b9 1S1f04.3b9 1S1f05.3b9 1S1f06.3b9 1S1f07.3b9 1S1f20.3b9 1S1f21.3b9",
    "1S1f22.3b9 1S1f23.3b9 1S1f24.3b9 1S1f25.3b9 1S1f26.3b9 1S1f27.3b9 1S1f20.3b9 1S1f21.3b9",
    "1S1f22.3b9 1S1f23.3b9 1S1f24.3b9 1S1f25.3b9 1S1f26.3b9 1S1f27.3b9 1S1f60.3b9 1S1f61.3b9",
    "1S1f62.3b9 1S1f63.3b9 1S1f64.3b9 1S1f65.3b9 1S1f66.3b9 1S1f67.3b9 1S1f60.3b9 1S1f61.3b9",
    "1S1f62.3b9 1S1f63.3b9 1S1f64.3b9 1S1f65.3b9 1S1f66.3b9 1S1f67.3b9 2V 1S1f70.3b9 1S3b1.3b9",
    "1S3ac.3b9 1X 1V 1S1fb6.3b9 2T1fb0 1T1f70 1T3ac 1S3b1.3b9 1S20.313 1T3b9 1S20.313 1S20.342",
    "1S20.308.342 1S1f74.3b9 1S3b7.3b9 1S3ae.3b9 1X 1V 1S1fc6.3b9 1T1f72 1T3ad 1T1f74 1T3ae",
    "1S3b7.3b9 1S20.313.300 1S20.313.301 1S20.313.342 3V 1T390 2X 2V 2T1fd0 1T1f76 1T3af 1X",
    "1S20.314.300 1S20.314.301 1S20.314.342 3V 1T3b0 4V 2T1fe0 1T1f7a 1T3cd 1T1fe5 1S20.308.300",
    "1S20.308.301 1T60 2X 1S1f7c.3b9 1S3c9.3b9 1S3ce.3b9 1X 1V 1S1ff6.3b9 1T1f78 1T3cc 1T1f7c",
    "1T3ce 1S3c9.3b9 1S20.301 1S20.314 1X bS20 1I 2V 2X 1V 1T2010 5V 1S20.333 cV 3X 1V 7X 1T20 3V",
    "1S2032.2032 1S2032.2032.2032 1V 1S2035.2035 1S2035.2035.2035 4V 1S21.21 1V 1S20.305 8V",
    "1S3f.3f 1S3f.21 1S21.3f dV 1S2032.2032.2032.2032 7V 1T20 5I 5X 6I 1T30 1T69 2X 6T34 1T2b",
    "1T2212 1T3d 2T28 1T6e aT30 1T2b 1T2212 1T3d 2T28 1X 1T61 1T65 1T6f 1T78 1T259 1T68 4T6b 1T70",
    "2T73 3X 8V 1S72.73 19V eX 21V fX 1S61.2f.63 1S61.2f.73 1T63 1Sb0.63 1V 1S63.2f.6f 1S63.2f.75",
    "1T25b 1V 1Sb0.66 2T67 3S68 1T127 2S69 2S6c 1V 1T6e 1S6e.6f 2V 3T70 2S72 2V 1S73.6d",
    "1S74.65.6c 1S74.6d 1V 1T7a 1V 1T3c9 1V 1T7a 1V 1T6b 1Te5 2T62 1V 2S65 1T66 1T214e 1T6d 1T6f",
    "4T5d0 1T69 1V 1S66.61.78 1T3c0 2S3b3 1T3c0 1T2211 4V 2S64 1T65 2T69 6V 1S31.2044.37",
    "1S31.2044.39 1S31.2044.31.30 1S31.2044.33 1S32.2044.33 1S31.2044.35 1S32.2044.35",
    "1S33.2044.35 1S34.2044.35 1S31.2044.36 1S35.2044.36 1S31.2044.38 1S33.2044.38 1S35.2044.38",
    "1S37.2044.38 1S31.2044 1T69 1S69.69 1S69.69.69 1S69.76 1T76 1S76.69 1S76.69.69 1S76.69.69.69",
    "1S69.78 1T78 1S78.69 1S78.69.69 1T6c 2T63 1T6d 1T69 1S69.69 1S69.69.69 1S69.76 1T76 1S76.69",
    "1S76.69.69 1S76.69.69.69 1S69.78 1T78 1S78.69 1S78.69.69 1T6c 2T63 1T6d 3V 2P 4V",
    "1S30.2044.33 2V 4X 9cV 1S222b.222b 1S222b.222b.222b 1V 1S222e.222e 1S222e.222e.222e f8V",
    "2T3008 ffV 16X bV 15X 9T31 1S31.30 1S31.31 1S31.32 1S31.33 1S31.34 1S31.35 1S31.36 1S31.37",
    "1S31.38 1S31.39 1S32.30 1S28.31.29 1S28.32.29 1S28.33.29 1S28.34.29 1S28.35.29 1S28.36.29",
    "1S28.37.29 1S28.38.29 1S28.39.29 1S28.31.30.29 1S28.31.31.29 1S28.31.32.29 1S28.31.33.29",
    "1S28.31.34.29 1S28.31.35.29 1S28.31.36.29 1S28.31.37.29 1S28.31.38.29 1S28.31.39.29",
    "1S28.32.30.29 14X 1S28.61.29 1S28.62.29 1S28.63.29 1S28.64.29 1S28.65.29 1S28.66.29",
    "1S28.67.29 1S28.68.29 1S28.69.29 1S28.6a.29 1S28.6b.29 1S28.6c.29 1S28.6d.29 1S28.6e.29",
    "1S28.6f.29 1S28.70.29 1S28.71.29 1S28.72.29 1S28.73.29 1S28.74.29 1S28.75.29 1S28.76.29",
    "1S28.77.29 1S28.78.29 1S28.79.29 1S28.7a.29 1aT61 1aT61 1T30 521V 1S222b.222b.222b.222b 67V",
    "1S3a.3a.3d 1S3d.3d 1S3d.3d.3d 65V 1S2add.338 97V 2X 8aV 30T2c30 30V 2P 1T26b 1T1d7d 1T27d 2V",
    "6P 1T251 1T271 1T250 1T252 1V 2P 1V 2P 5V 1T6a 1T76 2T23f 64P 7V 4P 3V 2P 5X 2dV 1X 1V 5X 1V",
    "2X 38V 7X 1T2d61 1V eX 18V 9X 7V 1X 7V 1X 7V 1X 7V 1X 7V 1X 7V 1X 7V 1X 7V 1X 7eV 22X 1aV 1X",
    "4V 1T6bcd 53V 1T9f9f cX 1T4e00 1T4e28 1T4e36 1T4e3f 1T4e59 1T4e85 1T4e8c 1T4ea0 1T4eba",
    "1T513f 1T5165 1T516b 1T5182 1T5196 1T51ab 1T51e0 1T51f5 1T5200 1T529b 1T52f9 1T5315 1T531a",
    "1T5338 1T5341 1T535c 1T5369 1T5382 1T53b6 1T53c8 1T53e3 1T56d7 1T571f 1T58eb 1T5902 1T590a",
    "1T5915 1T5927 1T5973 1T5b50 1T5b80 1T5bf8 1T5c0f 1T5c22 1T5c38 1T5c6e 1T5c71 1T5ddb 1T5de5",
    "1T5df1 1T5dfe 1T5e72 1T5e7a 1T5e7f 1T5ef4 1T5efe 1T5f0b 1T5f13 1T5f50 1T5f61 1T5f73 1T5fc3",
    "1T6208 1T6236 1T624b 1T652f 1T6534 1T6587 1T6597 1T65a4 1T65b9 1T65e0 1T65e5 1T66f0 1T6708",
    "1T6728 1T6b20 1T6b62 1T6b79 1T6bb3 1T6bcb 1T6bd4 1T6bdb 1T6c0f 1T6c14 1T6c34 1T706b 1T722a",
    "1T7236 1T723b 1T723f 1T7247 1T7259 1T725b 1T72ac 1T7384 1T7389 1T74dc 1T74e6 1T7518 1T751f",
    "1T7528 1T7530 1T758b 1T7592 1T7676 1T767d 1T76ae 1T76bf 1T76ee 1T77db 1T77e2 1T77f3 1T793a",
    "1T79b8 1T79be 1T7a74 1T7acb 1T7af9 1T7c73 1T7cf8 1T7f36 1T7f51 1T7f8a 1T7fbd 1T8001 1T800c",
    "1T8012 1T8033 1T807f 1T8089 1T81e3 1T81ea 1T81f3 1T81fc 1T820c 1T821b 1T821f 1T826e 1T8272",
    "1T8278 1T864d 1T866b 1T8840 1T884c 1T8863 1T897e 1T898b 1T89d2 1T8a00 1T8c37 1T8c46 1T8c55",
    "1T8c78 1T8c9d 1T8d64 1T8d70 1T8db3 1T8eab 1T8eca 1T8f9b 1T8fb0 1T8fb5 1T9091 1T9149 1T91c6",
    "1T91cc 1T91d1 1T9577 1T9580 1T961c 1T96b6 1T96b9 1T96e8 1T9751 1T975e 1T9762 1T9769 1T97cb",
    "1T97ed 1T97f3 1T9801 1T98a8 1T98db 1T98df 1T9996 1T9999 1T99ac 1T9aa8 1T9ad8 1T9adf 1T9b25",
    "1T9b2f 1T9b32 1T9b3c 1T9b5a 1T9ce5 1T9e75 1T9e7f 1T9ea5 1T9ebb 1T9ec3 1T9ecd 1T9ed1 1T9ef9",
    "1T9efd 1T9f0e 1T9f13 1T9f20 1T9f3b 1T9f4a 1T9f52 1T9f8d 1T9f9c 1T9fa0 2aX 1T20 1V 1T2e 33V",
    "1T3012 1V 1T5341 2T5344 5V 1X 56V 2X 2V 1S20.3099 1S20.309a 2V 1S3088.308a 5fV 1S30b3.30c8",
    "5X 2bV 1X 2T1100 1T11aa 1T1102 2T11ac 3T1103 6T11b0 1T111a 3T1106 1T1121 aT1109 15T1161 1I",
    "2T1114 2T11c7 1T11cc 1T11ce 1T11d3 1T11d7 1T11d9 1T111c 1T11dd 1T11df 2T111d 1T1120 2T1122",
    "1T1127 1T1129 5T112b 1T1132 1T1136 1T1140 1T1147 1T114c 2T11f1 3T1157 2T1184 1T1188 2T1191",
    "1T1194 1T119e 1T11a1 1X 2V 1T4e00 1T4e8c 1T4e09 1T56db 1T4e0a 1T4e2d 1T4e0b 1T7532 1T4e59",
    "1T4e19 1T4e01 1T5929 1T5730 1T4eba 46V aX 10V 1S28.1100.29 1S28.1102.29 1S28.1103.29",
    "1S28.1105.29 1S28.1106.29 1S28.1107.29 1S28.1109.29 1S28.110b.29 1S28.110c.29 1S28.110e.29",
    "1S28.110f.29 1S28.1110.29 1S28.1111.29 1S28.1112.29 1S28.ac00.29 1S28.b098.29 1S28.b2e4.29",
    "1S28.b77c.29 1S28.b9c8.29 1S28.bc14.29 1S28.c0ac.29 1S28.c544.29 1S28.c790.29 1S28.cc28.29",
    "1S28.ce74.29 1S28.d0c0.29 1S28.d30c.29 1S28.d558.29 1S28.c8fc.29 1S28.c624.c804.29",
    "1S28.c624.d6c4.29 1X 1S28.4e00.29 1S28.4e8c.29 1S28.4e09.29 1S28.56db.29 1S28.4e94.29",
    "1S28.516d.29 1S28.4e03.29 1S28.516b.29 1S28.4e5d.29 1S28.5341.29 1S28.6708.29 1S28.706b.29",
    "1S28.6c34.29 1S28.6728.29 1S28.91d1.29 1S28.571f.29 1S28.65e5.29 1S28.682a.29 1S28.6709.29",
    "1S28.793e.29 1S28.540d.29 1S28.7279.29 1S28.8ca1.29 1S28.795d.29 1S28.52b4.29 1S28.4ee3.29",
    "1S28.547c.29 1S28.5b66.29 1S28.76e3.29 1S28.4f01.29 1S28.8cc7.29 1S28.5354.29 1S28.796d.29",
    "1S28.4f11.29 1S28.81ea.29 1S28.81f3.29 1T554f 1T5e7c 1T6587 1T7b8f 8V 1S70.74.65 1S32.31",
    "1S32.32 1S32.33 1S32.34 1S32.35 1S32.36 1S32.37 1S32.38 1S32.39 1S33.30 1S33.31 1S33.32",
    "1S33.33 1S33.34 1S33.35 1T1100 2T1102 3T1105 1T1109 2T110b 5T110e 1Tac00 1Tb098 1Tb2e4",
    "1Tb77c 1Tb9c8 1Tbc14 1Tc0ac 1Tc544 1Tc790 1Tcc28 1Tce74 1Td0c0 1Td30c 1Td558 1Scc38.ace0",
    "1Sc8fc.c758 1Tc6b0 1V 1T4e00 1T4e8c 1T4e09 1T56db 1T4e94 1T516d 1T4e03 1T516b 1T4e5d 1T5341",
    "1T6708 1T706b 1T6c34 1T6728 1T91d1 1T571f 1T65e5 1T682a 1T6709 1T793e 1T540d 1T7279 1T8ca1",
    "1T795d 1T52b4 1T79d8 1T7537 1T5973 1T9069 1T512a 1T5370 1T6ce8 1T9805 1T4f11 1T5199 1T6b63",
    "1T4e0a 1T4e2d 1T4e0b 1T5de6 1T53f3 1T533b 1T5b97 1T5b66 1T76e3 1T4f01 1T8cc7 1T5354 1T591c",
    "1S33.36 1S33.37 1S33.38 1S33.39 1S34.30 1S34.31 1S34.32 1S34.33 1S34.34 1S34.35 1S34.36",
    "1S34.37 1S34.38 1S34.39 1S35.30 1S31.6708 1S32.6708 1S33.6708 1S34.6708 1S35.6708 1S36.6708",
    "1S37.6708 1S38.6708 1S39.6708 1S31.30.6708 1S31.31.6708 1S31.32.6708 1S68.67 1S65.72.67",
    "1S65.76 1S6c.74.64 1T30a2 1T30a4 1T30a6 1T30a8 2T30aa 1T30ad 1T30af 1T30b1 1T30b3 1T30b5",
    "1T30b7 1T30b9 1T30bb 1T30bd 1T30bf 1T30c1 1T30c4 1T30c6 1T30c8 6T30ca 1T30d2 1T30d5 1T30d8",
    "1T30db 5T30de 1T30e4 1T30e6 6T30e8 4T30ef 1S4ee4.548c 1S30a2.30d1.30fc.30c8",
    "1S30a2.30eb.30d5.30a1 1S30a2.30f3.30da.30a2 1S30a2.30fc.30eb 1S30a4.30cb.30f3.30b0",
    "1S30a4.30f3.30c1 1S30a6.30a9.30f3 1S30a8.30b9.30af.30fc.30c9 1S30a8.30fc.30ab.30fc",
    "1S30aa.30f3.30b9 1S30aa.30fc.30e0 1S30ab.30a4.30ea 1S30ab.30e9.30c3.30c8",
    "1S30ab.30ed.30ea.30fc 1S30ac.30ed.30f3 1S30ac.30f3.30de 1S30ae.30ac 1S30ae.30cb.30fc",
    "1S30ad.30e5.30ea.30fc 1S30ae.30eb.30c0.30fc 1S30ad.30ed 1S30ad.30ed.30b0.30e9.30e0",
    "1S30ad.30ed.30e1.30fc.30c8.30eb 1S30ad.30ed.30ef.30c3.30c8 1S30b0.30e9.30e0",
    "1S30b0.30e9.30e0.30c8.30f3 1S30af.30eb.30bc.30a4.30ed 1S30af.30ed.30fc.30cd 1S30b1.30fc.30b9",
    "1S30b3.30eb.30ca 1S30b3.30fc.30dd 1S30b5.30a4.30af.30eb 1S30b5.30f3.30c1.30fc.30e0",
    "1S30b7.30ea.30f3.30b0 1S30bb.30f3.30c1 1S30bb.30f3.30c8 1S30c0.30fc.30b9 1S30c7.30b7",
    "1S30c9.30eb 1S30c8.30f3 1S30ca.30ce 1S30ce.30c3.30c8 1S30cf.30a4.30c4",
    "1S30d1.30fc.30bb.30f3.30c8 1S30d1.30fc.30c4 1S30d0.30fc.30ec.30eb 1S30d4.30a2.30b9.30c8.30eb",
    "1S30d4.30af.30eb 1S30d4.30b3 1S30d3.30eb 1S30d5.30a1.30e9.30c3.30c9 1S30d5.30a3.30fc.30c8",
    "1S30d6.30c3.30b7.30a7.30eb 1S30d5.30e9.30f3 1S30d8.30af.30bf.30fc.30eb 1S30da.30bd",
    "1S30da.30cb.30d2 1S30d8.30eb.30c4 1S30da.30f3.30b9 1S30da.30fc.30b8 1S30d9.30fc.30bf",
    "1S30dd.30a4.30f3.30c8 1S30dc.30eb.30c8 1S30db.30f3 1S30dd.30f3.30c9 1S30db.30fc.30eb",
    "1S30db.30fc.30f3 1S30de.30a4.30af.30ed 1S30de.30a4.30eb 1S30de.30c3.30cf 1S30de.30eb.30af",
    "1S30de.30f3.30b7.30e7.30f3 1S30df.30af.30ed.30f3 1S30df.30ea 1S30df.30ea.30d0.30fc.30eb",
    "1S30e1.30ac 1S30e1.30ac.30c8.30f3 1S30e1.30fc.30c8.30eb 1S30e4.30fc.30c9 1S30e4.30fc.30eb",
    "1S30e6.30a2.30f3 1S30ea.30c3.30c8.30eb 1S30ea.30e9 1S30eb.30d4.30fc 1S30eb.30fc.30d6.30eb",
    "1S30ec.30e0 1S30ec.30f3.30c8.30b2.30f3 1S30ef.30c3.30c8 1S30.70b9 1S31.70b9 1S32.70b9",
    "1S33.70b9 1S34.70b9 1S35.70b9 1S36.70b9 1S37.70b9 1S38.70b9 1S39.70b9 1S31.30.70b9",
    "1S31.31.70b9 1S31.32.70b9 1S31.33.70b9 1S31.34.70b9 1S31.35.70b9 1S31.36.70b9 1S31.37.70b9",
    "1S31.38.70b9 1S31.39.70b9 1S32.30.70b9 1S32.31.70b9 1S32.32.70b9 1S32.33.70b9 1S32.34.70b9",
    "1S68.70.61 1S64.61 1S61.75 1S62.61.72 1S6f.76 1S70.63 1S64.6d 1S64.6d.32 1S64.6d.33 1S69.75",
    "1S5e73.6210 1S662d.548c 1S5927.6b63 1S660e.6cbb 1S682a.5f0f.4f1a.793e 1S70.61 1S6e.61",
    "1S3bc.61 1S6d.61 1S6b.61 1S6b.62 1S6d.62 1S67.62 1S63.61.6c 1S6b.63.61.6c 1S70.66 1S6e.66",
    "1S3bc.66 1S3bc.67 1S6d.67 1S6b.67 1S68.7a 1S6b.68.7a 1S6d.68.7a 1S67.68.7a 1S74.68.7a",
    "1S3bc.6c 1S6d.6c 1S64.6c 1S6b.6c 1S66.6d 1S6e.6d 1S3bc.6d 1S6d.6d 1S63.6d 1S6b.6d 1S6d.6d.32",
    "1S63.6d.32 1S6d.32 1S6b.6d.32 1S6d.6d.33 1S63.6d.33 1S6d.33 1S6b.6d.33 1S6d.2215.73",
    "1S6d.2215.73.32 1S70.61 1S6b.70.61 1S6d.70.61 1S67.70.61 1S72.61.64 1S72.61.64.2215.73",
    "1S72.61.64.2215.73.32 1S70.73 1S6e.73 1S3bc.73 1S6d.73 1S70.76 1S6e.76 1S3bc.76 1S6d.76",
    "1S6b.76 1S6d.76 1S70.77 1S6e.77 1S3bc.77 1S6d.77 1S6b.77 1S6d.77 1S6b.3c9 1S6d.3c9 1X",
    "1S62.71 1S63.63 1S63.64 1S63.2215.6b.67 1X 1S64.62 1S67.79 1S68.61 1S68.70 1S69.6e 1S6b.6b",
    "1S6b.6d 1S6b.74 1S6c.6d 1S6c.6e 1S6c.6f.67 1S6c.78 1S6d.62 1S6d.69.6c 1S6d.6f.6c 1S70.68 1X",
    "1S70.70.6d 1S70.72 1S73.72 1S73.76 1S77.62 1S76.2215.6d 1S61.2215.6d 1S31.65e5 1S32.65e5",
    "1S33.65e5 1S34.65e5 1S35.65e5 1S36.65e5 1S37.65e5 1S38.65e5 1S39.65e5 1S31.30.65e5",
    "1S31.31.65e5 1S31.32.65e5 1S31.33.65e5 1S31.34.65e5 1S31.35.65e5 1S31.36.65e5 1S31.37.65e5",
    "1S31.38.65e5 1S31.39.65e5 1S32.30.65e5 1S32.31.65e5 1S32.32.65e5 1S32.33.65e5 1S32.34.65e5",
    "1S32.35.65e5 1S32.36.65e5 1S32.37.65e5 1S32.38.65e5 1S32.39.65e5 1S33.30.65e5 1S33.31.65e5",
    "1S67.61.6c 708dV 3X 37V 9X 15cV 14X 2eP 12V 1cP 1T44a 1T44c 5aV 8X 22V eP 2V 3eP 1Ta76f 8V",
    "4P 1T1d79 aP 3V 2P 1T265 2V 4P 2V 14P 1T266 1T25c 1T261 1T26c 1T26a 1V 1T29e 1T287 1T29d",
    "1Tab53 10P 1Ta794 1T282 1T1d8e 4P 1T264 10P 1T19b 14X 1T73 1T63 1T66 1T71 2P 1V 1T127 1T153",
    "33V 3X aV 6X 38V 8X 46V 8X cV 6X 74V bX 1eV 3X 4eV 1X bV 4X 21V 1X 37V 9X eV 2X aV 2X 67V",
    "18X 1cV aX 6V 2X 6V 2X 6V 9X 7V 1X 7V 1X 2cV 1Ta727 1Tab37 1T26b 1Tab52 9V 1T28d 2V 4X",
    "50T13a0 2eV 2X aV 6X 2ba4V cX 17V 4X 31V 2104X 1T8c48 1T66f4 1T8eca 1T8cc8 1T6ed1 1T4e32",
    "1T53e5 2S9f9c 1T5951 1T91d1 1T5587 1T5948 1T61f6 1T7669 1T7f85 1T863f 1T87ba 1T88f8 1T908f",
    "1T6a02 1T6d1b 1T70d9 1T73de 1T843d 1T916a 1T99f1 1T4e82 1T5375 1T6b04 1T721b 1T862d 1T9e1e",
    "1T5d50 1T6feb 1T85cd 1T8964 1T62c9 1T81d8 1T881f 1T5eca 1T6717 1T6d6a 1T72fc 1T90ce 1T4f86",
    "1T51b7 1T52de 1T64c4 1T6ad3 1T7210 1T76e7 1T8001 1T8606 1T865c 1T8def 1T9732 1T9b6f 1T9dfa",
    "1T788c 1T797f 1T7da0 1T83c9 1T9304 1T9e7f 1T8ad6 1T58df 1T5f04 1T7c60 1T807e 1T7262 1T78ca",
    "1T8cc2 1T96f7 1T58d8 1T5c62 1T6a13 1T6dda 1T6f0f 1T7d2f 1T7e37 1T964b 1T52d2 1T808b 1T51dc",
    "1T51cc 1T7a1c 1T7dbe 1T83f1 1T9675 1T8b80 1T62cf 1T6a02 1T8afe 1T4e39 1T5be7 1T6012 1T7387",
    "1T7570 1T5317 1T78fb 1T4fbf 1T5fa9 1T4e0d 1T6ccc 1T6578 1T7d22 1T53c3 1T585e 1T7701 1T8449",
    "1T8aaa 1T6bba 1T8fb0 1T6c88 1T62fe 1T82e5 1T63a0 1T7565 1T4eae 1T5169 1T51c9 1T6881 1T7ce7",
    "1T826f 1T8ad2 1T91cf 1T52f5 1T5442 1T5973 1T5eec 1T65c5 1T6ffe 1T792a 1T95ad 1T9a6a 1T9e97",
    "1T9ece 1T529b 1T66c6 1T6b77 1T8f62 1T5e74 1T6190 1T6200 1T649a 1T6f23 1T7149 1T7489 1T79ca",
    "1T7df4 1T806f 1T8f26 1T84ee 1T9023 1T934a 1T5217 1T52a3 1T54bd 1T70c8 1T88c2 1T8aaa 1T5ec9",
    "1T5ff5 1T637b 1T6bae 1T7c3e 1T7375 1T4ee4 1T56f9 1T5be7 1T5dba 1T601c 1T73b2 1T7469 1T7f9a",
    "1T8046 1T9234 1T96f6 1T9748 1T9818 1T4f8b 1T79ae 1T91b4 1T96b8 1T60e1 1T4e86 1T50da 1T5bee",
    "1T5c3f 1T6599 1T6a02 1T71ce 1T7642 1T84fc 1T907c 1T9f8d 1T6688 1T962e 1T5289 1T677b 1T67f3",
    "1T6d41 1T6e9c 1T7409 1T7559 1T786b 1T7d10 1T985e 1T516d 1T622e 1T9678 1T502b 1T5d19 1T6dea",
    "1T8f2a 1T5f8b 1T6144 1T6817 1T7387 1T9686 1T5229 1T540f 1T5c65 1T6613 1T674e 1T68a8 1T6ce5",
    "1T7406 1T75e2 1T7f79 1T88cf 1T88e1 1T91cc 1T96e2 1T533f 1T6eba 1T541d 1T71d0 1T7498 1T85fa",
    "1T96a3 1T9c57 1T9e9f 1T6797 1T6dcb 1T81e8 1T7acb 1T7b20 1T7c92 1T72c0 1T7099 1T8b58 1T4ec0",
    "1T8336 1T523a 1T5207 1T5ea6 1T62d3 1T7cd6 1T5b85 1T6d1e 1T66b4 1T8f3b 1T884c 1T964d 1T898b",
    "1T5ed3 1T5140 1T55c0 2V 1T585a 1V 1T6674 2V 1T51de 1T732a 1T76ca 1T793c 1T795e 1T7965 1T798f",
    "1T9756 1T7cbe 1T7fbd 1V 1T8612 1V 1T8af8 2V 1T9038 1T90fd 3V 1T98ef 1T98fc 1T9928 1T9db4",
    "1T90de 1T96b7 1T4fae 1T50e7 1T514d 1T52c9 1T52e4 1T5351 1T559d 1T5606 1T5668 1T5840 1T58a8",
    "1T5c64 1T5c6e 1T6094 1T6168 1T618e 1T61f2 1T654f 1T65e2 1T6691 1T6885 1T6d77 1T6e1a 1T6f22",
    "1T716e 1T722b 1T7422 1T7891 1T793e 1T7949 1T7948 1T7950 1T7956 1T795d 2T798d 1T7a40 1T7a81",
    "1T7bc0 1T7df4 1T7e09 1T7e41 1T7f72 1T8005 1T81ed 2S8279 1T8457 1T8910 1T8996 1T8b01 1T8b39",
    "1T8cd3 1T8d08 1T8fb6 1T9038 1T96e3 1T97ff 1T983b 1T6075 1T242ee 1T8218 2X 1T4e26 1T51b5",
    "1T5168 1T4f80 1T5145 1T5180 1T52c7 1T52fa 1T559d 1T5555 1T5599 1T55e2 1T585a 1T58b3 1T5944",
    "1T5954 1T5a62 1T5b28 1T5ed2 1T5ed9 1T5f69 1T5fad 1T60d8 1T614e 1T6108 1T618e 1T6160 1T61f2",
    "1T6234 1T63c4 1T641c 1T6452 1T6556 1T6674 1T6717 1T671b 1T6756 1T6b79 1T6bba 1T6d41 1T6edb",
    "1T6ecb 1T6f22 1T701e 1T716e 1T77a7 1T7235 1T72af 1T732a 1T7471 1T7506 1T753b 1T761d 1T761f",
    "1T76ca 1T76db 1T76f4 1T774a 1T7740 1T78cc 1T7ab1 1T7bc0 1T7c7b 1T7d5b 1T7df4 1T7f3e 1T8005",
    "1T8352 1T83ef 1T8779 1T8941 1T8986 1T8996 1T8abf 1T8af8 1T8acb 1T8b01 1T8afe 1T8aed 1T8b39",
    "1T8b8a 1T8d08 1T8f38 1T9072 1T9199 1T9276 1T967c 1T96e3 1T9756 1T97db 1T97ff 1T980b 1T983b",
    "1T9b12 1T9f9c 1T2284a 1T22844 1T233d5 1T3b9d 1T4018 1T4039 1T25249 1T25cd0 1T27ed3 1T9f43",
    "1T9f8e 26X 1S66.66 1S66.69 1S66.6c 1S66.66.69 1S66.66.6c 2S73.74 cX 1S574.576 1S574.565",
    "1S574.56b 1S57e.576 1S574.56d 5X 1S5d9.5b4 1V 1S5f2.5b7 1T5e2 1T5d0 2T5d3 3T5db 1T5e8 1T5ea",
    "1T2b 1S5e9.5c1 1S5e9.5c2 1S5e9.5bc.5c1 1S5e9.5bc.5c2 1S5d0.5b7 1S5d0.5b8 1S5d0.5bc 1S5d1.5bc",
    "1S5d2.5bc 1S5d3.5bc 1S5d4.5bc 1S5d5.5bc 1S5d6.5bc 1X 1S5d8.5bc 1S5d9.5bc 1S5da.5bc 1S5db.5bc",
    "1S5dc.5bc 1X 1S5de.5bc 1X 1S5e0.5bc 1S5e1.5bc 1X 1S5e3.5bc 1S5e4.5bc 1X 1S5e6.5bc 1S5e7.5bc",
    "1S5e8.5bc 1S5e9.5bc 1S5ea.5bc 1S5d5.5b9 1S5d1.5bf 1S5db.5bf 1S5e4.5bf 1S5d0.5dc 2S671 4S67b",
    "4S67e 4S680 4S67a 4S67f 4S679 4S6a4 4S6a6 4S684 4S683 4S686 4S687 2S68d 2S68c 2S68e 2S688",
    "2S698 2S691 4S6a9 4S6af 4S6b3 4S6b1 2S6ba 4S6bb 2S6c0 4S6c1 4S6be 2S6d2 2S6d3 21V 4S6ad",
    "2S6c7 2S6c6 2S6c8 1S6c7.674 2S6cb 2S6c5 2S6c9 4S6d0 2S649 2S626.627 2S626.6d5 2S626.648",
    "2S626.6c7 2S626.6c6 2S626.6c8 3S626.6d0 3S626.649 4S6cc 1S626.62c 1S626.62d 1S626.645",
    "1S626.649 1S626.64a 1S628.62c 1S628.62d 1S628.62e 1S628.645 1S628.649 1S628.64a 1S62a.62c",
    "1S62a.62d 1S62a.62e 1S62a.645 1S62a.649 1S62a.64a 1S62b.62c 1S62b.645 1S62b.649 1S62b.64a",
    "1S62c.62d 1S62c.645 1S62d.62c 1S62d.645 1S62e.62c 1S62e.62d 1S62e.645 1S633.62c 1S633.62d",
    "1S633.62e 1S633.645 1S635.62d 1S635.645 1S636.62c 1S636.62d 1S636.62e 1S636.645 1S637.62d",
    "1S637.645 1S638.645 1S639.62c 1S639.645 1S63a.62c 1S63a.645 1S641.62c 1S641.62d 1S641.62e",
    "1S641.645 1S641.649 1S641.64a 1S642.62d 1S642.645 1S642.649 1S642.64a 1S643.627 1S643.62c",
    "1S643.62d 1S643.62e 1S643.644 1S643.645 1S643.649 1S643.64a 1S644.62c 1S644.62d 1S644.62e",
    "1S644.645 1S644.649 1S644.64a 1S645.62c 1S645.62d 1S645.62e 1S645.645 1S645.649 1S645.64a",
    "1S646.62c 1S646.62d 1S646.62e 1S646.645 1S646.649 1S646.64a 1S647.62c 1S647.645 1S647.649",
    "1S647.64a 1S64a.62c 1S64a.62d 1S64a.62e 1S64a.645 1S64a.649 1S64a.64a 1S630.670 1S631.670",
    "1S649.670 1S20.64c.651 1S20.64d.651 1S20.64e.651 1S20.64f.651 1S20.650.651 1S20.651.670",
    "1S626.631 1S626.632 1S626.645 1S626.646 1S626.649 1S626.64a 1S628.631 1S628.632 1S628.645",
    "1S628.646 1S628.649 1S628.64a 1S62a.631 1S62a.632 1S62a.645 1S62a.646 1S62a.649 1S62a.64a",
    "1S62b.631 1S62b.632 1S62b.645 1S62b.646 1S62b.649 1S62b.64a 1S641.649 1S641.64a 1S642.649",
    "1S642.64a 1S643.627 1S643.644 1S643.645 1S643.649 1S643.64a 1S644.645 1S644.649 1S644.64a",
    "1S645.627 1S645.645 1S646.631 1S646.632 1S646.645 1S646.646 1S646.649 1S646.64a 1S649.670",
    "1S64a.631 1S64a.632 1S64a.645 1S64a.646 1S64a.649 1S64a.64a 1S626.62c 1S626.62d 1S626.62e",
    "1S626.645 1S626.647 1S628.62c 1S628.62d 1S628.62e 1S628.645 1S628.647 1S62a.62c 1S62a.62d",
    "1S62a.62e 1S62a.645 1S62a.647 1S62b.645 1S62c.62d 1S62c.645 1S62d.62c 1S62d.645 1S62e.62c",
    "1S62e.645 1S633.62c 1S633.62d 1S633.62e 1S633.645 1S635.62d 1S635.62e 1S635.645 1S636.62c",
    "1S636.62d 1S636.62e 1S636.645 1S637.62d 1S638.645 1S639.62c 1S639.645 1S63a.62c 1S63a.645",
    "1S641.62c 1S641.62d 1S641.62e 1S641.645 1S642.62d 1S642.645 1S643.62c 1S643.62d 1S643.62e",
    "1S643.644 1S643.645 1S644.62c 1S644.62d 1S644.62e 1S644.645 1S644.647 1S645.62c 1S645.62d",
    "1S645.62e 1S645.645 1S646.62c 1S646.62d 1S646.62e 1S646.645 1S646.647 1S647.62c 1S647.645",
    "1S647.670 1S64a.62c 1S64a.62d 1S64a.62e 1S64a.645 1S64a.647 1S626.645 1S626.647 1S628.645",
    "1S628.647 1S62a.645 1S62a.647 1S62b.645 1S62b.647 1S633.645 1S633.647 1S634.645 1S634.647",
    "1S643.644 1S643.645 1S644.645 1S646.645 1S646.647 1S64a.645 1S64a.647 1S640.64e.651",
    "1S640.64f.651 1S640.650.651 1S637.649 1S637.64a 1S639.649 1S639.64a 1S63a.649 1S63a.64a",
    "1S633.649 1S633.64a 1S634.649 1S634.64a 1S62d.649 1S62d.64a 1S62c.649 1S62c.64a 1S62e.649",
    "1S62e.64a 1S635.649 1S635.64a 1S636.649 1S636.64a 1S634.62c 1S634.62d 1S634.62e 1S634.645",
    "1S634.631 1S633.631 1S635.631 1S636.631 1S637.649 1S637.64a 1S639.649 1S639.64a 1S63a.649",
    "1S63a.64a 1S633.649 1S633.64a 1S634.649 1S634.64a 1S62d.649 1S62d.64a 1S62c.649 1S62c.64a",
    "1S62e.649 1S62e.64a 1S635.649 1S635.64a 1S636.649 1S636.64a 1S634.62c 1S634.62d 1S634.62e",
    "1S634.645 1S634.631 1S633.631 1S635.631 1S636.631 1S634.62c 1S634.62d 1S634.62e 1S634.645",
    "1S633.647 1S634.647 1S637.645 1S633.62c 1S633.62d 1S633.62e 1S634.62c 1S634.62d 1S634.62e",
    "1S637.645 1S638.645 2S627.64b 12V 1S62a.62c.645 2S62a.62d.62c 1S62a.62d.645 1S62a.62e.645",
    "1S62a.645.62c 1S62a.645.62d 1S62a.645.62e 2S62c.645.62d 1S62d.645.64a 1S62d.645.649",
    "1S633.62d.62c 1S633.62c.62d 1S633.62c.649 2S633.645.62d 1S633.645.62c 2S633.645.645",
    "2S635.62d.62d 1S635.645.645 2S634.62d.645 1S634.62c.64a 2S634.645.62e 2S634.645.645",
    "1S636.62d.649 2S636.62e.645 2S637.645.62d 1S637.645.645 1S637.645.64a 1S639.62c.645",
    "2S639.645.645 1S639.645.649 1S63a.645.645 1S63a.645.64a 1S63a.645.649 2S641.62e.645",
    "1S642.645.62d 1S642.645.645 1S644.62d.645 1S644.62d.64a 1S644.62d.649 2S644.62c.62c",
    "2S644.62e.645 2S644.645.62d 1S645.62d.62c 1S645.62d.645 1S645.62d.64a 1S645.62c.62d",
    "1S645.62c.645 1S645.62e.62c 1S645.62e.645 2V 1S645.62c.62e 1S647.645.62c 1S647.645.645",
    "1S646.62d.645 1S646.62d.649 2S646.62c.645 1S646.62c.649 1S646.645.64a 1S646.645.649",
    "2S64a.645.645 1S628.62e.64a 1S62a.62c.64a 1S62a.62c.649 1S62a.62e.64a 1S62a.62e.649",
    "1S62a.645.64a 1S62a.645.649 1S62c.645.64a 1S62c.62d.649 1S62c.645.649 1S633.62e.649",
    "1S635.62d.64a 1S634.62d.64a 1S636.62d.64a 1S644.62c.64a 1S644.645.64a 1S64a.62d.64a",
    "1S64a.62c.64a 1S64a.645.64a 1S645.645.64a 1S642.645.64a 1S646.62d.64a 1S642.645.62d",
    "1S644.62d.645 1S639.645.64a 1S643.645.64a 1S646.62c.62d 1S645.62e.64a 1S644.62c.645",
    "1S643.645.645 1S644.62c.645 1S646.62c.62d 1S62c.62d.64a 1S62d.62c.64a 1S645.62c.64a",
    "1S641.645.64a 1S628.62d.64a 1S643.645.645 1S639.62c.645 1S635.645.645 1S633.62e.64a",
    "1S646.62c.64a 8V 20X 1S635.644.6d2 1S642.644.6d2 1S627.644.644.647 1S627.643.628.631",
    "1S645.62d.645.62f 1S635.644.639.645 1S631.633.648.644 1S639.644.64a.647 1S648.633.644.645",
    "1S635.644.649 1S635.644.649.20.627.644.644.647.20.639.644.64a.647.20.648.633.644.645",
    "1S62c.644.20.62c.644.627.644.647 1S631.6cc.627.644 3V 10I 1T2c 1T3001 1X 2T3a 1T21 1T3f",
    "2T3016 7X 10V 1X 1T2014 1T2013 2S5f 2T28 1T7b 1T7d 2T3014 2T3010 2T300a 2T3008 4T300c 2V",
    "1T5b 1T5d 4S20.305 3S5f 1T2c 1T3001 2X 1T3b 1T3a 1T3f 1T21 1T2014 2T28 1T7b 1T7d 2T3014 1T23",
    "1T26 2T2a 1T2d 1T3c 1T3e 1T3d 1X 1T5c 2T24 1T40 4X 1S20.64b 1S640.64b 1S20.64c 1V 1S20.64d",
    "1X 1S20.64e 1S640.64e 1S20.64f 1S640.64f 1S20.650 1S640.650 1S20.651 1S640.651 1S20.652",
    "1S640.652 2T621 2T622 2T623 2T624 2T625 3S626 2S627 4S628 2S629 4S62a 4S62b 4S62c 4S62d",
    "4S62e 2S62f 2S630 2S631 2S632 4S633 4S634 4S635 4S636 4S637 4S638 4S639 4S63a 4S641 4S642",
    "4S643 4S644 4S645 4S646 4S647 2S648 2S649 4S64a 2S644.622 2S644.623 2S644.625 2S644.627 2X",
    "1I 1X 20T21 1aT61 24T5b 2T2985 1T2e 2T300c 1T3001 1T30fb 1T30f2 1T30a1 1T30a3 1T30a5 1T30a7",
    "1T30a9 1T30e3 1T30e5 1T30e7 1T30c3 1T30fc 1T30a2 1T30a4 1T30a6 1T30a8 2T30aa 1T30ad 1T30af",
    "1T30b1 1T30b3 1T30b5 1T30b7 1T30b9 1T30bb 1T30bd 1T30bf 1T30c1 1T30c4 1T30c6 1T30c8 6T30ca",
    "1T30d2 1T30d5 1T30d8 1T30db 5T30de 1T30e4 1T30e6 6T30e8 1T30ef 1T30f3 2T3099 1I 2T1100",
    "1T11aa 1T1102 2T11ac 3T1103 6T11b0 1T111a 3T1106 1T1121 aT1109 3X 6T1161 2X 6T1167 2X 6T116d",
    "2X 3T1173 3X 2Ta2 1Tac 1S20.304 1Ta6 1Ta5 1T20a9 1X 1T2502 4T2190 1T25a0 1T25cb 11X cV 1X",
    "1aV 1X 13V 1X 2V 1X fV 2X eV 22X 7bV 5X 3V 4X 2dV 3X 58V 1X dV 3X 1V 2fX 2eV 82X 1dV 3X 31V",
    "fX 1cV 4X 24V 9X 1eV 5X 2bV 5X 1eV 1X 25V 4X eV 2aX 28T10428 76V 2X aV 6X 24T104d8 4X 24V 4X",
    "28V 8X 34V bX 1V bT10597 1X fT105a3 1X 7T105b3 1X 2T105bb 1X bV 1X fV 1X 7V 1X 2V 3X 34V cX",
    "137V 9X 16V aX 8V 18X 1V 2T2d0 1Te6 1T299 1T253 1X 1T2a3 1Tab66 1T2a5 1T2a4 2T256 1T1d91",
    "1T258 1T25e 1T2a9 1T264 1T262 1T260 1T29b 1T127 1T29c 1T267 1T284 2T2aa 1T26c 1T1df04 1Ta78e",
    "1T26e 1T1df05 1T28e 1T1df06 1Tf8 2T276 1T71 1T27a 1T1df08 2T27d 1T280 1T2a8 1T2a6 1Tab67",
    "1T2a7 1T288 1T2c71 1X 1T28f 2T2a1 1T298 3T1c0 1T1df0a 1T1df1e 45X 6V 2X 1V 1X 2cV 1X 2V 3X",
    "1V 2X 17V 1X 48V 8X 9V 30X 13V 1X 2V 5X 21V 3X 1bV 5X 1bV 26X 38V 4X 14V 2X 32V 1X 2V 5X 8V",
    "1X 3V 1X 1dV 2X 3V 4X aV 7X 9V 7X 40V 20X 27V 4X cV 9X 36V 3X 1dV 2X 1bV 5X 1aV 7X 4V cX 7V",
    "50X 49V 37X 33T10cc0 dX 33V 7X 2eV 8X aV 6X 10V 16T10d70 3X 1dV 8X 2V d0X 1fV 1X 2aV 1X 3V",
    "2X 2V 10X 6V 8X 9V 21X 2eV 8X 2aV 16X 1aV 26X 1cV 14X 17V 9X 4eV 4X 24V 9X 3eV 1X 5V dX 19V",
    "7X aV 6X 35V 1X 12V 8X 27V 9X 60V 1X 14V bX 12V 1X 2fV 3eX 7V 1X 1V 1X 4V 1X fV 1X bV 6X 3bV",
    "5X aV 6X 4V 1X 8V 2X 2V 2X 16V 1X 7V 1X 2V 1X 5V 1X aV 2X 2V 2X 3V 2X 1V 6X 1V 5X 7V 2X 7V",
    "3X 5V bX aV 1X 1V 2X 1V 1X 26V 1X aV 1X 1V 2X 1V 1X 4V 1X aV 1X 2V 8X 2V 1dX 5cV 1X 5V 1eX",
    "48V 8X aV a6X 36V 2X 26V 22X 45V bX aV 6X dV 13X 3aV 6X aV 6X 14V 1cX 1bV 2X fV 4X 17V b9X",
    "3cV 64X 20T118c0 33V cX 8V 2X 1V 2X 8V 1X 2V 1X 1eV 1X 2V 2X cV 9X aV 46X 8V 2X 2eV 2X bV",
    "1bX 48V 8X 53V dX 49V 7X aV 56X 8V 58X 22V eX aV 6X 9V 1X 2dV 1X eV aX 1dV 3X 20V 2X 16V 1X",
    "eV 49X 7V 1X 2V 1X 2cV 3X 1V 1X 2V 1X 9V 8X aV 6X 6V 1X 2V 1X 25V 1X 2V 1X 6V 7X aV 6X 2cV",
    "4X aV f6X 19V 7X 11V 1X 29V 3X 1dV 55X 1V fX 32V dX 39bV 66X 6fV 1X 5V bX c4V a4cX 63V dX",
    "430V 10X 16V aX f9bV 5X 247V 1ab9X 3aV 6c6X 239V 7X 1fV 1X aV 4X 51V 1X aV 6X 1eV 2X 6V aX",
    "46V aX aV 1X 7V 1X 15V 5X 13V 1b0X 3aV c6X 20T16e60 3bV 5X 19T16ebb 2X 19V 2cX 4bV 4X 39V 7X",
    "11V 40X 5V bX 7V 9X 1cd6V 29X 20V 61X 73V 21fdX 4V 1X 7V 1X 2V 1X 123V fX 1V 1dX 3V 2X 1V eX",
    "4V 8X 18cV 904X 6bV 5X dV 3X 9V 7X aV 2X 4V 4I f5cX d6V 1aT61 aT30 3V 3X 1b4V 6X 17V fX 11V",
    "fX 2eV 2X 17V 9X 74V 3cX f6V aX 27V 2X 35V 1S1d157.1d165 1S1d158.1d165 1S1d158.1d165.1d16e",
    "1S1d158.1d165.1d16f 1S1d158.1d165.1d170 1S1d158.1d165.1d171 1S1d158.1d165.1d172 eV 8I 40V",
    "1S1d1b9.1d165 1S1d1ba.1d165 1S1d1b9.1d165.1d16e 1S1d1ba.1d165.1d16e 1S1d1b9.1d165.1d16f",
    "1S1d1ba.1d165.1d16f 2aV 15X 46V 7aX 14V cX 14V cX 57V 9X 19V 87X 1aT61 1aT61 1aT61 7T61 1X",
    "12T69 1aT61 1aT61 1T61 1X 2T63 2X 1T67 2X 2T6a 2X 4T6e 1X 8T73 4T61 1X 1T66 1X 7T68 1X bT70",
    "1aT61 1aT61 2T61 1X 4T64 2X 8T6a 1X 7T73 1X 1aT61 2T61 1X 4T64 1X 5T69 1X 1T6f 3X 7T73 1X",
    "1aT61 1aT61 1aT61 1aT61 1aT61 1aT61 1aT61 1aT61 1aT61 1aT61 1aT61 1aT61 1aT61 1T131 1T237 2X",
    "11T3b1 1T3b8 7T3c3 1T2207 11T3b1 2S3c3 6T3c4 1T2202 1T3b5 1T3b8 1T3ba 1T3c6 1T3c1 1T3c0",
    "11T3b1 1T3b8 7T3c3 1T2207 11T3b1 2S3c3 6T3c4 1T2202 1T3b5 1T3b8 1T3ba 1T3c6 1T3c1 1T3c0",
    "11T3b1 1T3b8 7T3c3 1T2207 11T3b1 2S3c3 6T3c4 1T2202 1T3b5 1T3b8 1T3ba 1T3c6 1T3c1 1T3c0",
    "11T3b1 1T3b8 7T3c3 1T2207 11T3b1 2S3c3 6T3c4 1T2202 1T3b5 1T3b8 1T3ba 1T3c6 1T3c1 1T3c0",
    "11T3b1 1T3b8 7T3c3 1T2207 11T3b1 2S3c3 6T3c4 1T2202 1T3b5 1T3b8 1T3ba 1T3c6 1T3c1 1T3c0",
    "2S3dd 2X aT30 aT30 aT30 aT30 aT30 28cV fX 5V 1X fV 450X 1fV 6X 6V d5X 7V 1X 11V 2X 7V 1X 2V",
    "1X 5V 5X 9T430 3T43a bT43e 1T44b 2T44d 1Ta689 1T4d9 1T456 1T458 1T4e9 1T4af 1T4cf 9T430",
    "2T43a 2T43e 1T441 6T443 2T44a 1T491 1T456 1T455 1T45f 1T4ab 1Ta651 1T4b1 21X 1V 70X 2dV 3X",
    "eV 2X aV 4X 2V 140X 1fV 11X 3aV 5X 1V 1d0X 2aV d6X 2bV 4X 1V c0X 1fV 1X 16V 8X 2V e0X 7V 1X",
    "4V 1X 2V 1X fV 1X c5V 2X 10V 29X 22T1e922 2aV 4X aV 4X 2V 311X 44V 4cX 3dV c2X 2T627 1T62c",
    "1T62f 1X 1T648 1T632 1T62d 1T637 1T64a 4T643 1T633 1T639 1T641 1T635 1T642 1T631 1T634 2T62a",
    "1T62e 1T630 1T636 1T638 1T63a 1T66e 1T6ba 1T6a1 1T66f 1X 1T628 1T62c 1X 1T647 2X 1T62d 1X",
    "1T64a 4T643 1T633 1T639 1T641 1T635 1T642 1X 1T634 2T62a 1T62e 1X 1T636 1X 1T63a 6X 1T62c 4X",
    "1T62d 1X 1T64a 1X 1T644 1X 1T646 1T633 1T639 1X 1T635 1T642 1X 1T634 2X 1T62e 1X 1T636 1X",
    "1T63a 1X 1T6ba 1X 1T66f 1X 1T628 1T62c 1X 1T647 2X 1T62d 1T637 1T64a 1T643 1X 2T645 1T633",
    "1T639 1T641 1T635 1T642 1X 1T634 2T62a 1T62e 1X 1T636 1T638 1T63a 1T66e 1X 1T6a1 1X 2T627",
    "1T62c 1T62f 2T647 1T632 1T62d 1T637 1T64a 1X 3T644 1T633 1T639 1T641 1T635 1T642 1T631 1T634",
    "2T62a 1T62e 1T630 1T636 1T638 1T63a 5X 1T628 1T62c 1T62f 1X 1T648 1T632 1T62d 1T637 1T64a 1X",
    "3T644 1T633 1T639 1T641 1T635 1T642 1T631 1T634 2T62a 1T62e 1T630 1T636 1T638 1T63a 34X 2V",
    "10eX 2cV 4X 64V cX fV 2X fV 1X fV 1X 25V bX 1S30.2c 1S31.2c 1S32.2c 1S33.2c 1S34.2c 1S35.2c",
    "1S36.2c 1S37.2c 1S38.2c 1S39.2c 5V 1S28.61.29 1S28.62.29 1S28.63.29 1S28.64.29 1S28.65.29",
    "1S28.66.29 1S28.67.29 1S28.68.29 1S28.69.29 1S28.6a.29 1S28.6b.29 1S28.6c.29 1S28.6d.29",
    "1S28.6e.29 1S28.6f.29 1S28.70.29 1S28.71.29 1S28.72.29 1S28.73.29 1S28.74.29 1S28.75.29",
    "1S28.76.29 1S28.77.29 1S28.78.29 1S28.79.29 1S28.7a.29 1S3014.73.3015 1T63 1T72 1S63.64",
    "1S77.7a 1V 1aT61 1S68.76 1S6d.76 1S73.64 1S73.73 1S70.70.76 1S77.63 1aV 1S6d.63 1S6d.64",
    "1S6d.72 23V 1S64.6a 1dV 38X 1aV 1S307b.304b 1S30b3.30b3 1T30b5 dX 1T624b 1T5b57 1T53cc",
    "1T30c7 1T4e8c 1T591a 1T89e3 1T5929 1T4ea4 1T6620 1T7121 1T6599 1T524d 1T5f8c 1T518d 1T65b0",
    "1T521d 1T7d42 1T751f 1T8ca9 1T58f0 1T5439 1T6f14 1T6295 1T6355 1T4e00 1T4e09 1T904a 1T5de6",
    "1T4e2d 1T53f3 1T6307 1T8d70 1T6253 1T7981 1T7a7a 1T5408 1T6e80 1T6709 1T6708 1T7533 1T5272",
    "1T55b6 1T914d 4X 1S3014.672c.3015 1S3014.4e09.3015 1S3014.4e8c.3015 1S3014.5b89.3015",
    "1S3014.70b9.3015 1S3014.6253.3015 1S3014.76d7.3015 1S3014.52dd.3015 1S3014.6557.3015 7X",
    "1T5f97 1T53ef eX 6V 9aX 3d9V 3X 11V 3X dV 3X daV 6X cV 4X 1V fX cV 4X 38V 8X aV 6X 28V 8X",
    "1eV 2X cV 4X 2V eX 9V 27X 158V 8X eV 2X dV 3X bV 3X 39V 1X 1V 4X 10V 2X cV 4X aV 7X 93V 1X",
    "5cV aT30 1V 405X a6e0V 20X 111eV 2X 168eV 2X 1d31V fX 26eV 9a2X 1T4e3d 1T4e38 1T4e41 1T20122",
    "1T4f60 1T4fae 1T4fbb 1T5002 1T507a 1T5099 1T50e7 1T50cf 1T349e 1T2063a 1T514d 1T5154 1T5164",
    "1T5177 1T2051c 1T34b9 1T5167 1T518d 1T2054b 1T5197 1T51a4 1T4ecc 1T51ac 1T51b5 1T291df",
    "1T51f5 1T5203 1T34df 1T523b 1T5246 1T5272 1T5277 1T3515 1T52c7 1T52c9 1T52e4 1T52fa 2T5305",
    "1T5317 1T5349 1T5351 1T535a 1T5373 1T537d 3S537f 1T20a2c 1T7070 1T53ca 1T53df 1T20b63 1T53eb",
    "1T53f1 1T5406 1T549e 1T5438 1T5448 1T5468 1T54a2 1T54f6 1T5510 1T5553 1T5563 2S5584 1T5599",
    "1T55ab 1T55b3 1T55c2 1T5716 1T5606 1T5717 1T5651 1T5674 1T5207 1T58ee 1T57ce 1T57f4 1T580d",
    "1T578b 1T5832 1T5831 1T58ac 1T214e4 1T58f2 1T58f7 1T5906 1T591a 1T5922 1T5962 1T216a8",
    "1T216ea 1T59ec 1T5a1b 1T5a27 1T59d8 1T5a66 1T36ee 1T36fc 1T5b08 2S5b3e 1T219c8 1T5bc3 1T5bd8",
    "1T5be7 1T5bf3 1T21b18 1T5bff 1T5c06 1T5f53 1T5c22 1T3781 1T5c60 1T5c6e 1T5cc0 1T5c8d 1T21de4",
    "1T5d43 1T21de6 1T5d6e 1T5d6b 1T5d7c 2T5de1 1T382f 1T5dfd 1T5e28 1T5e3d 1T5e69 1T3862 1T22183",
    "1T387c 1T5eb0 1T5eb3 1T5eb6 1T5eca 1T2a392 1T5efe 2S22331 1T8201 2S5f22 1T38c7 1T232b8",
    "1T261da 1T5f62 1T5f6b 1T38e3 1T5f9a 1T5fcd 1T5fd7 1T5ff9 1T6081 1T393a 1T391c 1T6094 1T226d4",
    "1T60c7 1T6148 1T614c 1T614e 1T614c 1T617a 1T618e 1T61b2 1T61a4 1T61af 1T61de 1T61f2 1T61f6",
    "1T6210 1T621b 1T625d 1T62b1 1T62d4 1T6350 1T22b0c 1T633d 1T62fc 1T6368 1T6383 1T63e4 1T22bf1",
    "1T6422 1T63c5 1T63a9 1T3a2e 1T6469 1T647e 1T649d 1T6477 1T3a6c 1T654f 1T656c 1T2300a 1T65e3",
    "1T66f8 1T6649 1T3b19 1T6691 1T3b08 1T3ae4 1T5192 1T5195 1T6700 1T669c 1T80ad 1T43d9 1T6717",
    "1T671b 1T6721 1T675e 1T6753 1T233c3 1T3b49 1T67fa 1T6785 1T6852 1T6885 1T2346d 1T688e 1T681f",
    "1T6914 1T3b9d 1T6942 1T69a3 1T69ea 1T6aa8 1T236a3 1T6adb 1T3c18 1T6b21 1T238a7 1T6b54 1T3c4e",
    "1T6b72 1T6b9f 2T6bba 1T23a8d 1T21d0b 1T23afa 1T6c4e 1T23cbc 1T6cbf 1T6ccd 1T6c67 1T6d16",
    "1T6d3e 1T6d77 1T6d41 1T6d69 1T6d78 1T6d85 1T23d1e 1T6d34 1T6e2f 1T6e6e 1T3d33 1T6ecb 1T6ec7",
    "1T23ed1 1T6df9 1T6f6e 1T23f5e 1T23f8e 1T6fc6 1T7039 1T701e 1T701b 1T3d96 1T704a 1T707d",
    "1T7077 1T70ad 1T20525 1T7145 1T24263 1T719c 1T243ab 1T7228 1T7235 1T7250 1T24608 1T7280",
    "1T7295 1T24735 1T24814 1T737a 1T738b 1T3eac 1T73a5 2S3eb8 1T7447 1T745c 1T7471 1T7485 1T74ca",
    "1T3f1b 1T7524 1T24c36 1T753e 1T24c92 1T7570 1T2219f 1T7610 1T24fa1 1T24fb8 1T25044 1T3ffc",
    "1T4008 1T76f4 1T250f3 1T250f2 1T25119 1T25133 2T771e 1T771f 1T774a 1T4039 1T778b 1T4046",
    "1T4096 1T2541d 1T784e 1T788c 1T78cc 1T40e3 1T25626 1T7956 1T2569a 1T256c5 1T798f 1T79eb",
    "1T412f 1T7a40 1T7a4a 1T7a4f 1T2597c 2S25aa7 1T7aee 1T4202 1T25bab 1T7bc6 1T7bc9 1T4227",
    "1T25c80 1T7cd2 1T42a0 1T7ce8 1T7ce3 1T7d00 1T25f86 1T7d63 1T4301 1T7dc7 1T7e02 1T7e45 1T4334",
    "1T26228 1T26247 1T4359 1T262d9 1T7f7a 1T2633e 1T7f95 1T7ffa 1T8005 1T264da 1T26523 1T8060",
    "1T265a8 1T8070 1T2335f 1T43d5 1T80b2 1T8103 1T440b 1T813e 1T5ab5 1T267a7 1T267b5 1T23393",
    "1T2339c 1T8201 1T8204 1T8f9e 1T446b 1T8291 1T828b 1T829d 1T52b3 1T82b1 1T82b3 1T82bd 1T82e6",
    "1T26b3c 1T82e5 1T831d 1T8363 1T83ad 1T8323 1T83bd 1T83e7 1T8457 1T8353 1T83ca 1T83cc 1T83dc",
    "1T26c36 1T26d6b 1T26cd5 1T452b 1T84f1 1T84f3 1T8516 1T273ca 1T8564 1T26f2c 1T455d 1T4561",
    "1T26fb1 1T270d2 1T456b 1T8650 1T865c 1T8667 1T8669 1T86a9 1T8688 1T870e 1T86e2 1T8779 1T8728",
    "1T876b 1T8786 1T45d7 1T87e1 1T8801 1T45f9 1T8860 1T8863 1T27667 1T88d7 1T88de 1T4635 1T88fa",
    "1T34bb 1T278ae 1T27966 1T46be 1T46c7 1T8aa0 1T8aed 1T8b8a 1T8c55 1T27ca8 1T8cab 1T8cc1",
    "1T8d1b 1T8d77 1T27f2f 1T20804 1T8dcb 1T8dbc 1T8df0 1T208de 1T8ed4 1T8f38 1T285d2 1T285ed",
    "1T9094 1T90f1 1T9111 1T2872e 1T911b 1T9238 2T92d7 1T927c 1T93f9 1T9415 1T28bfa 1T958b 1T4995",
    "1T95b7 1T28d77 1T49e6 1T96c3 1T5db2 1T9723 1T29145 1T2921a 1T4a6e 1T4a76 1T97e0 1T2940a",
    "1T4ab2 1T29496 2S980b 1T9829 1T295b6 1T98e2 1T4b33 1T9929 1T99a7 1T99c2 1T99fe 1T4bce",
    "1T29b30 1T9b12 1T9c40 1T9cfd 1T4cce 1T4ced 1T9d67 1T2a0ce 1T4cf8 1T2a105 1T2a20e 1T2a291",
    "1T9ebb 1T4d56 1T9ef9 1T9efe 1T9f05 1T9f0f 1T9f16 1T9f3b 1T2a600 5e2X 134bV 5X 212aV acc86X",
    "f0I"]

/-- What the letter of the table, and the numbers after it, stand for. -/
def Mapping.ofKind : List Char → Mapping
  | ['V'] => .kept
  | ['I'] => .leftOut
  | ['P'] => .paired
  | 'T' :: digits => .shifted (Text.valueIn 16 digits)
  | 'S' :: numbers =>
    .replaced ((Text.pieces (· = '.') numbers).map fun ds => Char.ofNat (Text.valueIn 16 ds))
  | _ => .refused

/-- The runs of the mapping. -/
def mappingRuns : Unicode.Runs Mapping := .ofTable Mapping.ofKind mappingTable

/-- What becomes of a character: those that take its place, or none if it is refused. -/
def mapChar? (c : Char) : Option (List Char) :=
  match mappingRuns.find? c.toNat with
  | some (.kept, _) => some [c]
  | some (.leftOut, _) => some []
  | some (.paired, place) => some [if place % 2 = 0 then Char.ofNat (c.toNat + 1) else c]
  | some (.shifted first, place) => some [Char.ofNat (first + place)]
  | some (.replaced chars, _) => some chars
  | some (.refused, _) | none => none

/-- A character that stays as it is. -/
def isKept (c : Char) : Bool := mapChar? c = some [c]

/-- What becomes of a text. -/
def mapText? (text : List Char) : Option (List Char) := (text.mapM mapChar?).map List.flatten

end CueScope.Domain

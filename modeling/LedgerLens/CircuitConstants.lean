import LedgerLens.Bn254

/-!
# Tables of the range circuit

`circuits/constants.circom`: the doublings of the two generators as integers. Over the
base field both tables are checked to be what their comments say; the circuit reads the
same integers in another field.
-/
namespace CircuitConstants

open Bn254
open scoped JacobianCoordinates

def gPow2X : List ℕ := [
  1,
  1368015179489954701390400359078579693043519447331113978918064868415326638035,
  3010198690406615200373504922352659861758983907867017329644089018310584441462,
  3932705576657793550893430333273221375907985235130430286685735064194643946083,
  10835225521862395592687560951453385602895512958032257955899877380493200080708,
  4873079524557847867653965550062716553062346862158697560012111398864356025363,
  3038550774229452338520305302102289389514246337232061005890017890741294374174]

def gPow2Y : List ℕ := [
  2,
  9918110051302171585080402603319702774565515993150576347155970296011118125764,
  4027184618003122424972590350825261965929648733675738730716654005365300998076,
  18813763293032256545937756946359266117037834559191913266454084342712532869153,
  2623520004791921319615054428233368525468155544765295675952919303096698181037,
  11422470166079944859104614283946245081791188387376113119760245565153108742933,
  15141682980524414268395793955952745969090858569447644602853115000426078794031]

def hPow2X : List ℕ := [
  14061978860853272386573630626865792048169500487673017990666300226863726962914,
  12828507401079373880889214198218792449212332206848426778398062129571230076538,
  14393735830669229557158476570253780704486423707912114346398734027073282264344,
  10880830745631213540103533577558553029470480638465864315504915163975899086936,
  7467971022253455290904522437859929231262549256150442225090803807433481455875,
  15229562052019332803063028339429704084043169317967688002039342446772032374338,
  6868386004929436366737918530772810021016409964346745278593827050987202214884,
  9188555833526152285254623891416377896747718500465816436583927047508674208317,
  16562595799909512381794861447520268660954981447932704567169937244388444353114,
  3569523418935318001570456256463329619311997966094321803388148996955579964650,
  8965689550705509366049786233481923436464299794872448191906506714139632997028,
  9848291925097822653804702010197750737216422585728191505564998389790549256083,
  13509291919974766270565074283107985620378334403183365494641366238761936146202,
  17280043261745921035877851537591466038067848179637972734716629587194747863448,
  15981121640435367184379129770591466744915909442856304420983449105398146679008,
  3839683412961098440491928549742072296611224943613131121488569877059141904057,
  18202878263557866400417067142896807913914920116069760561452939416085385216130,
  7034685664020724643826436414456668626142689343509685651896322935605589446871,
  13939936329296874638578162341653417590811841799172384661565013776921447260449,
  3418980841785395636162646858380374446409678660133282107078934177129337026121,
  7699253249022917452216409410658458676052674501098265920772866850662604332393,
  6704803436323157744169233018292508585580840065301001467428026654605386193587,
  18256547857503454002285188091157077671232689402094821217943975758155942989232,
  14633662146772056477547995013657092416459632857847331195946326659994723112963,
  15599111517495042948069375666379941786651078474176133639785002143027388125718,
  13812418222358241934190626420941139825794641083155317701817739078610348078681,
  17234679681787639472845580604492343661131062405306080496868724700687577501891,
  19958746798637781867685902635388036163874960918231611014750904379451646521883,
  19317876192544845145778816538974957480650893593886766596904576398747984837349,
  15275427151789074324341998965084029944754762787121248422185947542441992385853,
  21061120501595278101303641455997537150034476420791318324501442440236467338621,
  7670737056276320074380199960209706873853271925012462925987563425124709090853,
  15637736465990717553484160045658307512181856092324131996680404516792140517021,
  8642827350741492570387913016462358406106273961282614340212959473198701171325,
  13966395614962636509721345198843570309195309898855330641725080896545419951860,
  12806325836754589641318987839572382229233864687855878440820831311940264240365,
  1756663373327620178926797338022796893665926597210525121956586968228266584760,
  7009191704484564032846334632611719478074288193105095401139379916168399755042,
  13269691743825930052465550155214687996855319723489740540757176856134788422831,
  2937023598321466909031979443610581071823730561738800964903591034698490870745,
  9099822454696054085958396373957584878141332778947518829687136990531968848345,
  20596563085794729202254753609475607086745548941879635490904793769234053077477,
  8246347527025647465359765243809933246314102039493474844165491821565933065313,
  17416319150888189391287386061324601752217158776426096601307837605607355147039,
  20040382180547336888574295318026228571213307072824506410637722954556141984329,
  8819814679979404873697491532101075367981542976229250049393314235798793758983,
  20502681852664351237013395612272173314689348299083896120122020219655922595585,
  10004313101746319730779370436391231221992540166398218446411636927981131108346,
  15167227861253825778238190318848487371248083560634559355379092931152242784075,
  10925138147781170306575740202596368707680015439465863908831069939188151550345,
  12404626868573776152992556057858882203423819893968970551604564258979363147809,
  3642084586443676748372061541079311461431657911140252693759716047099079585063,
  14642059515808081417673548133529872841656551200582109234215790368402596191167,
  19843982242724173572730586864514646149092673321818706113361095231830877413763,
  8420081770232358645781809630229066037064980847888837008814001633760494401411,
  18865611874465541238840979103042099034017988097085108922932732033097236732887,
  9825999980622708570272455029080980287917151675524502516255171709447560814436,
  21082128276251919205396016090476567799881601970088209940352359275419069674942,
  14974880176969474214950570232652108476059755849127294460565691131868856165690,
  11934814760917988122307531063538128454911990527673362300048929859408637522853,
  17082753441932649302689953910322395281353352185737121791936045631186635614372,
  9744773001276994215621226278440153715829468995792808169704954001594817440737,
  9223242353399199775849086797747480672855491705226785376149468324105291575523,
  6309760629183441132598513678668360875756468591767514585287095221329899544596,
  15502434146133356616960031657560540748844433139327425823131582726067098047108,
  4738849570898082908148723354781939516913022956874420105881885199770428145642,
  15384392298637193144517546177655631355497178469773263977401287271893786140180,
  7741500800825327341549515840291576709230980409417858361386546302394472836614,
  19820353144105391706420945492658563748130995098546534167177446993410857526298,
  14584959378739169447398218609583838820070029762546393404771952276625196560794,
  12453393555217193108631228121618318125134319038827929970044348568632108589350,
  4579201056021067016979403887018945775619341636851346243917024384532431526466,
  17413420927893805284073513943755507461511964386108603011282140873619873369084,
  1809887967284794359152637729949221862581506640821186537354962857558018003348,
  18700034021836178246395281893463231482139068774425720616468822615837070531264,
  1298562580172729827117501019675476982746441295076049724116409800207759321734,
  8349607695547449730281243471587376712547883518375122473536832928179109667665,
  9339066269845207081104928035723468187992013759928814311707779306075709952240,
  19227018105711380279043118725292341430722996709428628144821177466117342579600,
  1788413503885824028625282292545916636764696395940841423917533767342074836294,
  8169733286829879097899798080582052427178906678001985989651317404594837069393,
  9320812976391321975603750314234360790077039577347288536970764479504951768324,
  1971554482877122908289392926225013471301869802675334841682923322306283681641,
  20692849798489246874953810303238296139152099656255839114169328147751124122105,
  6062752581452983098884072878017794904408536056365638850941349607210565162775,
  12500083403108379796855015349377880250010139017931181980977911095358767144333,
  11528142705241864691253052552074334854466642393827438580642445783549317131295,
  17060595222746626969503704639460329702361649569398804984756307562443006606774,
  3759948230349926898964609991715578101504961053252623954373784722993868852742,
  7211534789518989261743195921141938499320807412314022172815898212698822867418,
  4350582557415265963529518805019130218615289502006956438633415443929272183969,
  21232293141135061807455335017315460456928976285702857430485344139478494325726,
  15821414975161148878755671459481568441805930262773850751851824400151884166870,
  3115724431469047823879100072868052285338310747756738826676322572780470309138,
  6550119278336194924251404391140479776521244199167281940157816554645208135827,
  4845410305726999989261699166345867083739736992182982578258288961156899916118,
  16844824687520456299247784587746158644374772775992140878086887770006394392578,
  11590663235472574145938965430625876599305200268471721298911915899210046207353,
  9160703804118706531766247267111279646187673724842400657634375613671937822289,
  5207338764726492258007609112139688264742616420666492464201430759060966004568,
  14098979321584882946714604016229300057774145145367888137906659129463997641912,
  2623776215208951516375727288341588171026176422821907679369295900832407596461,
  9109658962346238754768404975975194889143630972786079269743964042418676308180,
  11448085431732292505984675058997379365787427145586309209516289933879571538133,
  16876917910745968993005936035040339760246650230534719345984172110102368812370,
  18393284287364516115181495844369686698983964475222858046410198635897187682399,
  15185076465749643312950106114302881369719206930687226951157467866019731810319,
  21429025261811678987315445472881719016399007513963590091640937166060667383999,
  14969381559091060081507803459062004423029501101068710716936888577807737606267,
  20550437080643387607338494412416321001510268453519012855384566256250643198189,
  13373181931362701388972097002050180581127386092400498539715913006034169272316,
  1804207912238239086440581953397523966031061193892195003255750793839587250012,
  4821776206756990123060091428140439447400045505635462818205775972078339416129,
  934657399487102916638612353763029963599734594924856705346076428340816434601,
  1615515319334025424663268948671019724263025122306657633607325757258730995142,
  10449427657103528986246454672012421122991068224976146648658553717161013580616,
  16333673446962216519639295139907095642644113712445769565963327811975405735125,
  157189112254192310060843406694317311119628325905903791804184019532501293936,
  13398226141216172835440331508552221745489460462427695083072129172734793240889,
  3544193205878438072850737867694244439396206498584320214913155015184067139582,
  20594036549863565665783297270863546483413242667084405241792149227113880713539,
  8787421306259628041682581516278102941200695645724091311798258027797564643935,
  3465050931157779417529572949457727947296050825901279283183814759727301434637,
  14731619167192334286372372235943315267216284763404395248567080736096764560378,
  12165699665059923804449118918093684593590137866047025275797679161796699961550,
  12311132535154509854244435452678043690338656027341632884554616264481396717368,
  6814774993024143615773998278879965387521971692792682988592086472231000218344,
  9847541365154159245545191843576188269466239628689759416069081807091790533852,
  19314571763798090506842643690492117421321479995258951355483432356470124789891,
  12843845239104340294929741927349716209789358852832620162863569137432829515513,
  13094806464968020036800833491784585477769707117133263196285238821464988349165,
  3705975521921200103671010117032422827840653301596037825799773623714853496045,
  10067804704789175170107216842967794131513334964446477027871495734078769649789,
  15303397537194472341066803793316511733617599598888261156488557715107474305455,
  6877577713758988784923659756539819002502889597767895868618879938192532182223,
  4689684447689761422904459251049721747402656661238184981925940001350988358603,
  1814797286815736041052416998705373670914377715401113445172387996881220770030,
  15247186552390106532918683103629631266636546357591183076231944580804733759277,
  4702927097059601796960472472159356192753212946806963475085053985549089912938,
  12660883421622387752167121328931398477773133926268610214647889957975930443897,
  5469277334531455920776675195771126440377673867985300612401690756488702524765,
  21295225204141196429482679564890102055782115968908202344882477121287285066852,
  12227895729949159052954923527406090280928685663645182782717399717841862233055,
  14982808321712084568678441403976280971016073942252539421694970013527342509250,
  4445175966086483866496781001462906166868462733330659605906832334926351052124,
  15044876209003372989537371401744118214501189033675502852375501609189602918287,
  11760002921163773114293303581248507797725197001489793654294509470261475331714,
  11357022121303922954460746909884005915951471412923448283569938370070883026025,
  16932101497878919026961015351543808706742068140998850348525328668551617737390,
  13196048675665264125278761460957535259926656856771704590369173100526421136830,
  20139716227898652117019594223397839011117848746678704742274124861357946690230,
  20591037294411276031336288309357878406287879121893699519700915602830699632212,
  21286995777765323592364190770720166853392870848535601621955904180560126056109,
  6380445884168418076256547570384130286234628568903106387817030076821088418612,
  5044980520346848960145996814065149112183214846836276147418209693992076000480,
  1032649005330807867382464104120364141155125541801229191459511585056897169951,
  21147259400919186413133418454729052845087922317198502015527530023545218547798,
  11892629924253704480702553364785685851008401332708641021252376372957152124563,
  19449665499621793149175894359221735517100960206758904473967743074533197729772,
  3717526105168161232562480272008353032770848934844760998797892933217041668930,
  20469686166440791174346348752433854135077161152953903285376630883930853402253,
  15471213746420463638173027144339944125387892155772404652040727027807569897731,
  10078456495319138985128353915158611172940637174864948206760747093942026520766,
  18741713149399396870534228087134198446275120755242019118582941701191860695511,
  12349108471844659388844298474625128421238320486944156852215473456693218767033,
  20814488971705333352928587196283632630749805926621767940581326609742486739521,
  7561370868754858328522433105831123154039866627433899656896134953800667019666,
  11669667354710349944391633415498480774803640990178115582918980344024071824593,
  795376989788593002339783731775779149326331405896425234961124078665586173377,
  16052792714797560035000511856841101731451662815454709162310780314394603088813,
  12234812647342734930245880723334707156342395175992058185073353074882024957175,
  2213957045333040104559606888664664298675200948192952641897751958760354733365,
  17189425969145806980393453376008309421608942525789556408775732190056873167894,
  12846955899666064555317256773894927286964039501034971326596424016029411506750,
  17130931814000878031284385636496256928313194099241982714004565152742742450830,
  21325162823005248102728801851977000808803078384782299283894992272323060583061,
  11756970269713970217504567977182046561234816415786700951443902265032009752768,
  225362522238880318553845981344620614583573031394869649197708236617483446617,
  15174172399692171407485602785217210745443257894115914822822285512818064911848,
  18211500704276673019600282304797106520090905762837793052500907212935649348172,
  4461077804100293051573213889283461713458465391924289469887778949163779358654,
  6425365444871701507710257275690622851689899609011171063379469309611322989887,
  21698184205228221487300212004916539374106537523129216847766818661746571663670,
  2982907852935455819664178814387725770769383966360967811810904002275967682873,
  8395138501233768436689491958064279250540878135810927955769205695571920727016,
  7575330970381307094666237371716125676475373242795823312071566129573772081338,
  14385165490023675098045440207407582590835870684767988005462675119386634666535,
  11422570201803033374077741263899849676183368715298294512758817214025591340488,
  10924828046281578717656161119216461812832328453716633406526045378150214741177,
  5938466186633958268864420664834473292591101914406211049817426776358352421152,
  13621477250851037020168759678327375847012600232317081505608354080025635445860,
  10338986450026529471254189387624310234517607375537495283032679026319143125740,
  13386913949467695497870274470737190926618858774897894782519692565717014517486,
  844697120270993369501491476159849880854122346161387602703764584829531164490,
  18585449384236062566510255317398579101670010027466551507866295069295857344995,
  20880626220087043626583992545301892580396437327964824860946751981945333523329,
  1238869309532128822896535681985345986861426600493242032896838422979623253430,
  12060384661645147317707552868713170614947111056282543460253912606137495709445,
  11117818826312836888845409867419837347189616413855581928482315769751504477709,
  12118417304828769863183692496287202165330966654815792479715054695346524716112,
  6682432865891628551249587591688139293691360311162173471939890831272860025681,
  18315886905109841827786742636014787955197333658008755880814535620626240103828,
  4001192201005642778205510708539820431342807264013673923552820442146376673965,
  4765980862060702094297721860524196173311462783225560765311621452283686356939,
  2813263584766505058098475421251672199786483573428429955297517251862403820501,
  12401754108753234047082912102733807838106275881160162209170472091844758737327,
  3901604979220487271307672596115914872872219527827864280352915465704917144147,
  6982548478335988020327256618682817380030281711108187611091302125778827438663,
  13600211497248688488814342810428799784850176401805493213732692733828602059236,
  12093676765238931523722830565240609654774435005655098924050534988536447716518,
  14524945218621650659882697811510373592709039776329757824031023670591282094130,
  15642393622524621017233662754496730131369883969970449821231584283301609934954,
  15592684677131983513424314357140334411963832793390964670356484828478996941635,
  8503589855599780913617965934324628104748407402619250419285359125883838734364,
  11831587515815524571172843114643311231075288107647498571709350049881163265713,
  9140003943672685419778371367821789280461898740599290812408839545930629589346,
  15853189002813634777792209673249957424333673449216795303220094827640616120832,
  169202470031387804501092329090223744748827910390200352901236414206344799847,
  27049041099320337146118659243493143195775516307798234998120527514166492183,
  13188921306282709551998439933994402445628421440799174231637693414843591986760,
  13598022756649385889954575670051170027542920574280989434928040806888318852508,
  14528900328439242838078010232909758027074965466115817559431761137814730597751,
  21466074685261448163295671336266362468503844842333430638956961267833664140740,
  21617269917770999993657014306778127052239755517751227786895410440038464420925,
  2328374373320340296212518127116707850325655671458755656585413774693694810523,
  20611264196940538150852031271261902779658498727930220441255576630577654612965,
  19950492701636676265824753571253318170992791809835607804410862390015170723963,
  16959629519716639907933784960769422184100672601680726291760382544467186835755,
  12778349512614778491325943236598824305057409508555989711468649586298965890046,
  21081694709696286387279173349459843080750066461698950707413431127947317730839,
  2571719419458566870169258831367345271811386691097931687902230792851428399476,
  10333378859616239329852065386166939752588763903257227399794296676254967206001,
  19526851990273748191952251549166455712444730914430836841517152137499489468605,
  2533828265393921865673227844736531849210705755394055332771787381406205389306,
  1615359837200827866567719231236546419369030657389358199260008447278551390230,
  1857567994238140836514076394727051733750324962363888527425115499797847644442,
  16621874956992270880267204527450939706550427677765615866078730601961313347785,
  18656450913204887706564887953383531512439259847228340494554396843964035172941,
  2401249888571144139750711977971217319054205437379691121687283717148981505112,
  21044034607180543786411985788460907713097240561459001831855127782550312554526,
  13872237793550134730139123515866684254908628448591335392687876609762915053182,
  3360237819453682142730332391018681189393019111338524404590700206577259580172,
  13499275525959129381896503705954560677071178902602112847319548626923839727308,
  15652403342321412664415914807411304592418519038598986070726321916115433513785,
  4851131407047808080768589636267960906529408642746452248442507502042054303783,
  5309506104504959529993417839586840295843056946127019323841332310353372573922,
  19671429457177459249626831359865914951466703517999351751665011760851862554856,
  17783514239720190586096007044074759549912173923630844905982404626878694232082,
  18565670176117819561587005822845045402218148168413153050501923409404947162125,
  17115298921203736058602745539858190959934579279838531270814758116275443577016,
  2449210075119625967881608310926257392711344677756110732956890310553466019357,
  19750256575735857289154371937578979155082193268745188671846385001610672852607,
  11472306008929550089571010763887538371126274635635453930702853508135661410886,
  18518304657688431041786778783894493641130260545870766395348595897409105687632]

def hPow2Y : List ℕ := [
  14834675640681478622832622145478774624666240558736371690983741048123668897720,
  3777055022871951360259020746747934586908327129351250237297429020312338388095,
  4330334831428806694106437377629717324018247254279309431629562796028650560489,
  5145323517511924646027703080019655924549675563131259152192714569243152745509,
  1513393470683014051215245231464099568533802204064232916992155212595839163150,
  6353586586676153225112719073721536612886821139737474729293161097649819668328,
  4891411520779840764435158899434295615663350387535831384118473004564238102676,
  5346181694313108454026191157460214765371439286063045629226940659514446301004,
  19877637830024206406138828563870032748399964452324003491934301277629271844583,
  6470944073893269400146555436908879655234680638029277352247438803632251707965,
  262137124715714282920547130538908710832785500596877957183231226402501261296,
  9878451232056591373373065637070851857331178495608281565158883841974222857189,
  2349756585312919820833621493506999141761350445936825183619861772140944433825,
  3086411872809995904646087337158153255006658569986592157510574113515541999863,
  9954538527186954461293225908704796115347929150696318434438563961667468621721,
  21062167156255994697183831358383665727613385524127732620646509158555857461855,
  20896533945131089223627434993948110630799809890748446688388417739333445180076,
  2859472621238785506860313406299988271087238481218485718300195856289317796354,
  20389149520675959511100760289823098944219565976012210048273132960123662919968,
  6690048244717636879064078084590227331605687539375499845274529266050592247521,
  19077283322966505511596658856434709781383779056835610734972248517642057277266,
  505446736505168424714189847953993024240752224105064624416891294182868729802,
  21318362532409716478536780693792314955627718784613238342008673388797169728944,
  18583858730244223130548097762274571158511647262613778397666299535628802760012,
  8154058755655005264679663984455808730857240170170905422236261184874089301909,
  17795077668128676104303337238209334428694357647251619525980460046990117343235,
  2753894410554643829798184088888080184509224800431650129424436640944878968609,
  13495312709827819921906366072865957578202746071123115512299958750834057309013,
  13636111703173267328004006359136643356087456364587467807657106030260276182313,
  21590312177771352601501805956734469380216322839913504042489367135740398767689,
  21698151462083883662548699069874049626136802701687038477148135047582607642395,
  2874184636852515971486686086982409804062049353786908352813859039840186483064,
  21021994648991354339211341180230264610680819460473079460808057619102951281829,
  7499692405311902501952945473003639949395848555182489572873601310270798750551,
  4096082448169012076229033647789581911810248069565560809326758873277937550244,
  6497715857930355424000742674837050339439592956498474864805093119913838057752,
  12429601125006343109229477524581372251287254829328883385958973251182633390469,
  16917289706439335065411846119746350729662004963988744376345650431332233588465,
  18535573088363363761771216587380817080840742555875779098268524818893269915190,
  2435189775566106090383342170276778968604596536531760551454046946793962502287,
  14758501528626609919269044828095779771687793145988300429934620159462110924506,
  18037206676970997361490229223356729475600015482501056501097502850826455085219,
  21453729539360325346379601600871573848505340520530901990971778230942750306146,
  20690831282794980273611594022213413559302239268258866223952472266470644992161,
  15738290288577768521216310214647193418771363896982073359399587360790110877737,
  11571264733779970643838881186415077218758643432316498190796260660904185280839,
  13785107638197628678542254826838462585654469718008092831642122357023667884105,
  5337955082814963008828329146793000932214371330775428289241748749590242792404,
  8178160913738343405232594887856297993696117611790114032700894353769812127983,
  6465660487247445149538390628128410107106442946235639154935966208638923531610,
  8840759516647796146435734545535447087313454332794310970407543918117368665324,
  20543432143301563082916206905307284923629898547453670733784011613587367025636,
  15080308924996142431298651927415765501918869959245201073555550413580495859865,
  2324008036602161344995761434014224291128831763086670646920683725368836950946,
  3319207521310881233435881943107341002418756231679424051731390083666722002059,
  12818159507430669996203607772634096577270351843400524663614370557800874146001,
  16707167333316901042441124069815525223545786989659291788581187607143033047139,
  6671133882161306466061166596952022732381912839962472220008227692805368896563,
  2207345152678428630410990822387287045965480079827856823878481377658793071619,
  18634901027393264475435554107345932712545889713158811880436286577003090451405,
  3148710683711052810798035735256716596198289744436391360802806038650688468024,
  1007638267825346822973461109795932678012841656380886281377295439005877804876,
  8400871116875103485169550130044048032097051727820539530363304525763650017433,
  6755151628356896154464673598063754820844332638231376582333810394565211155798,
  12389391873522120121000729897125657963392141465095724767689962135278640353908,
  5628471996380535204732804089979895815676194002767862367698169330455736095360,
  13598064403527853649367824808311442120885087743961084330109357513985763028624,
  10645043059318337392757242130439198686858561763789474506598132911507967935593,
  19244723400286764596855910206242668601248005837123492125906550706976559227603,
  19360339865395042915526446372387995093768338548613545642687107856914928332692,
  3816077112320920560115957589509573855528458362202369490679675619961587570235,
  8531373398807707374429455203992440829012626852814137722254564886472846755932,
  2709872257380214124209652895517000314219486666869631960456925470690874780494,
  2028771229263584467204973574679726528852172775625258178904386628098428500172,
  7267431802603280158848564435226901804061440798365524227601666362488827927177,
  19685907746058568357300889611695146944756945280281455953801393669765427091817,
  7778726712646577454479621630889869114053907705029099477075091801001026192336,
  17615290093454461075862258504823876645493138699309308326701373461051131689992,
  20968998748752501669152683366657407391987420590983066810433040405503489686997,
  4967533140964266889965678787057708945645804506815480685903399826978961975743,
  17902258373470300226920842700996268121476011558105238124551602546184003260020,
  21166834780783832786179852106111653029086607993748676400588796093497253600558,
  11158281676195983158745020689385541852723521237437391889732463844049998922656,
  20786988790618578310936500856371725624081750923614926025123609465579716329596,
  15069180741877261815451665382275823446920784259099964629174688712249244011760,
  13573987959530401090378531445355297755750618952049021216930342394305436555098,
  8381734661825787060928922399685796992795119281522342426199826881650590479147,
  18450280851386903178515409738820705103707454634197439605442625463055442359635,
  14154511897084881098508589410246438881303559604174587661116457430066853720744,
  2075921760718539499151993172750669871894657439672362483509406676508134326629,
  21560235627963195416750424781795850612356684124359834034925678273615566697912,
  1954839995098916012883916598612478096196547254018933339974664093813288190383,
  19857021303195520916824358591009669429021498395649703418367239878072100438617,
  9142312718236114119273623576288446283539403993042537497895944662833724116552,
  14364381375123171339403602409740495830226883520083094144279767319465138931874,
  99411973236001230591240927855781796145932146712107118453116235904031443067,
  13709265836379156780163581623086655213551970376357089654699535405805347104554,
  19106339168256671683036865840441587766371454354627606224424275097851452306410,
  10179028546794944675359041574274153861913025510322848546603403140886830622825,
  15017789048951114340750073301228263208801376255317357426093555041198996248290,
  17022358750444292681234586888255657629993554925581082493126278355070551453080,
  17566109554047011641934523000069792606597993915198665288718507417962068784924,
  2367073179602582675139564259227957529857014105296701214335384702834134712151,
  4693806130296577342491182111366197331322558083510222718454670791533340154832,
  19699436106596221955923815919987681308793705114743344725480857401756463568715,
  19863680183701079248665959255933764801142112362854266323788223608143047242528,
  3364842704784895459677955706805255338245654393083466067440398158667154159907,
  19524937538416577506670264155934485725229539694341326129453169420947994840392,
  5614900590754798239823095926618554905561171762725926393532056608684733348527,
  8743638891606506419825093258300754505665049841728826072736196689283414167894,
  21186278121358540623739855592451552848890012026157816742640971440719219657418,
  3783797326638421419406491541825633494784146105774399977986075360091499449168,
  12116515907211524854692692944504555959917450264181395149003339121904230155074,
  4566299099807385269364661838674035688138208539837168993829989852974206599907,
  8214507284071103807231438688290704867895542541474060891012992055590746341095,
  3271869142128696951129131544350100548120566228052451849564841476948154795438,
  1858042229449148616601304740961235755966955446445937301678812723251792355382,
  7143819665443615821963870155663815348875775817073858741321079103015986559017,
  15224522377415087131918368436217960899641011785365681617095397213325696501489,
  9281089495832748414049320336020434699194379299602868283803435564978956850815,
  9517377031537952466097723350971796711389685950050779646746156513440606222386,
  4341966826300605689221074564932549205192810808705927680463492339974202290023,
  16891471859449604553205941047015007054451199883221899947764623574803171139469,
  6765042706348425225991493041808712116972320695130663075818374017640950040430,
  14314481167216345785299875898914770167046714901021212885410616053975362673125,
  14619890254655584403116238363533510808123609827789781321210961675570049520698,
  758258903105014391305937117736584808698383763743269235640185298255427455974,
  9434109642640576248330533113906188597632380127789999260768035412355410913108,
  18752286040841357088679652144364343964937139162091175265261108743741228384489,
  9132518455238822284240413398229749776265476620999514057889826335982258399350,
  16570654117564470657034281865953185581242452941371985837375874174455438756449,
  13288776704470782978317696446779716387676073641824182242908681719172363393324,
  13272103409621802339959966158806110406076934285294060691753425685396259014307,
  10759607788686744932769581660338241512797993937706421577952665367214586669770,
  1017794137428912100123334131230777712780196668075937484906093972631226029771,
  11683811152482499645832215528241076213171923060519727430041277626542270736162,
  12380731048254455693593667604709782424903922681043829917908752867400706355576,
  3125253219727073212091351913542065983816088024391029165786598911487937735269,
  18071328791997288764004960615314823854892631328983388862953688421813842623337,
  8957827156827049741398259998144009397914109412282694722219074906417440985471,
  6733537994013802401993059800580542064077598063028572972520162249885046816419,
  15605359788440550090341420585127292853585466732328014104758428364088159292401,
  10435529980800963717416885382201852360223617011910772217612574739959515811519,
  14063623542361780323193024575501309903070947140751014552437866341296950048234,
  18455910527552707163923540839248870590456382819625751923142892107277017110794,
  2381408078298637708155584728828357339171845590825103806597621437900953776286,
  5897625818517739350414623963897072222521646611100413405070610816591465935596,
  10904570597379620562673982643556123727962392879742026467953074894234144974569,
  1208289463423708754336989236086472460993253931864188588071339982362358943077,
  11807201166871580888313537355704663558546539606100075012822152807434165651320,
  14594598866170848812696535374437164290477110075483444795576584738869040764570,
  6715342333191392830321285627364351269539853585702494073007541875148725691283,
  15045084975263868106934235306901475040439370621095013035145878330438798076021,
  3207104670614593911564454721855096775699265024768778176525451044147848998826,
  12090653510621515488510990974175423454050207791427940704301612495791494568209,
  6740703682075569235589024146735873234604416313262941629916109654548122581742,
  8339190918952345091620528322258136887385900600615758220310713611167663232718,
  19087349389005108861805486010535796171800548401374424119150223868804297662516,
  12942592531158708936239166202851193936997822013377702989778141239769766030228,
  1202840926275596307286816618642413443420686983308296458654382794639958140015,
  20347148117840868101111704439586688987542025278702521715737722402506032857882,
  3334025942586861262741489579071823065940891891937758218421279586165923394081,
  19955697306195033231468161374099753836807007959720662115544885669690584488809,
  16291244758436673619923059133112045761242682386040213967888519251985644977898,
  662994666846796581842281185621951879186218781906048215057124448085043345490,
  9968569980739305537395499908321928309720590873086605813426824601816151777329,
  9158565364568802678014259463684192337274672562864617369191665400466318828661,
  19829195279602150460882570236868477920665130018363943256526730627115081630138,
  21279589661502203814156734417092362147570404750799200930842822361549506235506,
  16103854983877020323066959119529184730598186920170658974476251967234761394426,
  5761334340122859678302102626261532883356086284321585722568375471867978811681,
  18177925266763913501332707671988657602778260511544005125394453293331049147926,
  13444509067264990080633247226787842025000199314890446002365340302677642177102,
  6378149193886864851910614760406241540376787564890722695173070881054183713541,
  19522669169892283004586079371836262954184591055232720282295149258312099882450,
  19315510492762293061885884414282524916964013139609757028769574076463363557020,
  8066055275075911394212386684588516294478410538657564098745324175617672537366,
  3002421841069526102271966601205051390481675696913920818242110939983925351845,
  13389117906818741502840800487636560483271095620087469209085187066656224205577,
  7444329636822624765748832369776791402899975282761817965362240374069491511948,
  10765954218453768828276322312073169568734506556689820671667389031234492312499,
  20124884658092269037564589291221704225610867138593073696840703894371889276201,
  5705818630598367890431773777061913057235067688305939260344074397747030143530,
  13464416519697549411197796886687856831531507317825298292569314266733748448661,
  1502173205480188377326782337546386467823940683743560245491065091852566847815,
  12238097829414817958356010894373744668848144931482546684377416291394854005323,
  19040536319859792484431640636785239215388009639193810913398260686714652179314,
  20993950341725108927625188478586126968068964871796202101416186499161884857654,
  17374949872383690523480227924964439592982144756697502979579038238241578402137,
  3139980092057640372074052713620786710358713932729719413172941440659800767147,
  16969118436036194996256610472630971150340782823878201258305286998413856593721,
  17962946257332924761130798092814210660084183967798045416120391557297337216492,
  8773267111481174553229558047394975690268118582119853379319802085834435139024,
  19724661082127046000069839529772696448745658059055461283407903188753404940236,
  803423374136490687211605700692256920165511343739879101596285544412000193023,
  4691780305086345195162289361889170414428971870766706606288582029243444279215,
  5261605621307570192240132564970441409833738323918991071287401765755676362700,
  1791218005575578417188280854293478353073286261286579822683903711879696448733,
  7225555657519157388656061688097303805630369123556372786382532368010653454613,
  11508922393042461098350843003066355561375347118799163511870898808150049228133,
  12595869603349675882767867942219180929030459964675198885058060026172311673566,
  3524532807868913179331288541538983098023050694394131738788463048310561108911,
  542835417501446239414632545438488890718735162012614527073402707115777087064,
  5060891641974071964458788120252756138814567976420759078151471349355902564608,
  19534250750234059208590392731426102209461267243612391155711127944002585509391,
  10000598229363763502856247302999567837340529034022712079368052424730735775301,
  1015651742099939995902193540036988610975413121150575043053306476122099926225,
  14582834453612515595865621488861506187199690671383300507886700665264935635273,
  7691336239398754773291262419481580798262075018633552890415483321220458308891,
  8338472586605348083610846659751009416539868254153767684631534569212375489035,
  18037300195563835310688586853966192067442267940524156460286519404010039503362,
  1665057336717864195555301950272288354189545506250687959621143243612233490907,
  400079462549404389201008963861293328160038751858930882148973875688822878222,
  4280190584619019138800449744371239562183754820584580308626459236663576692779,
  20668928857800463566378376181146253006764784014761500306142900908464462439230,
  135749119892323973868072420887652105823795393583398910701791413981866956999,
  17561951451001742856864798790551051334566892112711656888169208535986129941222,
  12965322961369395017172460041183542423168922334206261590995801304239018810389,
  5739300935601977812553090049240220698376739275320276026223961867036886446658,
  12258266541984409151865641188550562819805151445945779888182335975080200513751,
  2613808844778197634909367745032296336594547307828342855610946050864601724139,
  17975878959829814908771866880161999730212922104185739260991252465584124740591,
  109024379661391668652815398345082611815956310194545778087084933206024733737,
  592417359296156880485996318310125517416010734323197183457471949937395900687,
  13988172093417091249871330092057042014015364724314768230505608069222122813602,
  19521226169228549161664107038160597830378980427674337833303346229323222368124,
  16017200995375861260075624084064757152591364755084717725594350198357214645365,
  2813621212308927237277496708513322318391575080841127678984974213046266543524,
  8534767689715522615760280970667244146075539138332808929318055418695688137305,
  1990676469367205558431326541124032643045479820166339472691537741990953233729,
  12623740770332161445310039004751905413025572109073726798542967570326159868566,
  6659345217062808901827107949346463307881204199553673455585344905446519186999,
  5833083330163888428602992756664936811097341065369836962951099213458087099063,
  3991207510762677114191340658662676518630665556455123919396373539780758582798,
  15549290513233382747141139921083459719015565101420200607196190858625084775078,
  1674330613753837224320781276780520317795182875961415806911793094423150157661,
  20833026278076247108258727853999457755140789832903868712441862506426653975943,
  16775464475456704040598794679233158468119349597695257897937195860632811550378,
  6432185730191953431363152664928947165425601517968800113379298344503856594515,
  15382123937450730796569084948549064189776778460375625791565363379825807451892,
  8523541336368794696755512992427213429178527673298372142241454490320803724938,
  6710771682337295672513695743150997638392033159150392071681981401739340317218,
  9664331626211345607194350040647527365217313439219177155681952007604883173772,
  15750922794721233046643589533527501106068950050100906822589192133747273730089,
  15093371468124691158878879132112842380217113697673032199357899483654914037331,
  11954716380791887319571597260899114133466256486424697652447232674964290240765,
  11038171424764105320086686203550917374132342073026631424870861930934399616974,
  3192784494154714828240359024284039561817680781455786071981627807467391489066,
  13306417045013104212053620981588064843318085754740757223416858592850996748172,
  3511902536318204907672385936425563431365675490904725968218515454021348144582,
  1943781877758998319036158694423932953529044422491021091667282339718417174353,
  7360621879899945076610885471813311283511273144716893022873142773403026643984,
  17466753817864332749912690216946835208576364164701813098174354707529230750115,
  17896354371920499828504862660692953642971400551473052119022732378637352674487]

def getGPow2X (i : ℕ) : ℕ := gPow2X.getD i 0
def getGPow2Y (i : ℕ) : ℕ := gPow2Y.getD i 0
def getHPow2X (i : ℕ) : ℕ := hPow2X.getD i 0
def getHPow2Y (i : ℕ) : ℕ := hPow2Y.getD i 0

def gPow2 : List (ℕ × ℕ) := gPow2X.zip gPow2Y
def hPow2 : List (ℕ × ℕ) := hPow2X.zip hPow2Y

def OnCurve (p : ℕ × ℕ) : Prop := (p.2 : BaseField) ^ 2 = (p.1 : BaseField) ^ 3 + 3

instance (p : ℕ × ℕ) : Decidable (OnCurve p) :=
  inferInstanceAs (Decidable ((_ : BaseField) = _))

def tablePoint (p : ℕ × ℕ) (h : OnCurve p) : G1Point := mkPoint p.1 p.2 h

structure IsDoublingTable (l : List (ℕ × ℕ)) : Prop where
  onCurve : ∀ p ∈ l, OnCurve p
  double : ∀ e ∈ l.zip l.tail, IsDouble (e.1.1, e.1.2) (e.2.1, e.2.2)

/-- Consecutive doublings make entry `i` the multiple by `2 ^ i`. -/
theorem pow_two_nsmul {l : List (ℕ × ℕ)} (h : IsDoublingTable l) (h0 : 0 < l.length) (i : ℕ)
    (hi : i < l.length) : 2 ^ i • tablePoint l[0] (h.onCurve _ (List.getElem_mem h0)) =
      tablePoint l[i] (h.onCurve _ (List.getElem_mem hi)) := by
  induction i with
  | zero => rw [pow_zero, one_nsmul]
  | succ i ih =>
    have hzip : i < (l.zip l.tail).length := by
      rw [List.length_zip, List.length_tail]
      omega
    have hdouble := h.double _ (List.getElem_mem hzip)
    rw [List.getElem_zip, List.getElem_tail] at hdouble
    rw [pow_succ, mul_nsmul, ih (by omega)]
    exact two_nsmul_mkPoint _ _ hdouble

theorem gPow2_isDoublingTable : IsDoublingTable gPow2 :=
  ⟨by decide +kernel, by decide +kernel⟩

theorem hPow2_isDoublingTable : IsDoublingTable hPow2 :=
  ⟨by decide +kernel, by decide +kernel⟩

theorem zip_getElem {xs ys : List ℕ} {i : ℕ} (h : i < (xs.zip ys).length) :
    (xs.zip ys)[i] = (xs.getD i 0, ys.getD i 0) := by
  have hlen := h
  rw [List.length_zip, lt_min_iff] at hlen
  simp [List.getD, hlen.1, hlen.2]

theorem length_gPow2 : gPow2.length = 7 := rfl

theorem length_hPow2 : hPow2.length = 254 := by decide +kernel

/-- The generator the table of blinding multiples starts from. -/
def hBase : G1Point := tablePoint (getHPow2X 0, getHPow2Y 0) (by decide +kernel)

theorem gPow2_eq (i : ℕ) (hi : i < 7) :
    ∃ h, 2 ^ i • generator = tablePoint (getGPow2X i, getGPow2Y i) h := by
  have hlt : i < gPow2.length := length_gPow2 ▸ hi
  have hpow := pow_two_nsmul gPow2_isDoublingTable (by omega) i hlt
  have hentry : gPow2[i] = (getGPow2X i, getGPow2Y i) := zip_getElem hlt
  rw [← hentry]
  exact ⟨_, hpow⟩

theorem hPow2_eq (i : ℕ) (hi : i < 254) :
    ∃ h, 2 ^ i • hBase = tablePoint (getHPow2X i, getHPow2Y i) h := by
  have hlt : i < hPow2.length := length_hPow2 ▸ hi
  have hpow := pow_two_nsmul hPow2_isDoublingTable (by omega) i hlt
  have hentry : hPow2[i] = (getHPow2X i, getHPow2Y i) := zip_getElem hlt
  rw [← hentry]
  exact ⟨_, hpow⟩

end CircuitConstants
